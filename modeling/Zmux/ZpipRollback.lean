import Mathlib.Data.List.Dedup
import Zmux.ZpipCalls

/-!
# Rolling back what a failed install pulled in

A failed call uninstalls the dependencies it pulled in itself, and only
those: what a dependency pulled in stays. A failure passes up to the
requested package, so the calls that fail are one below the other, and all
others have succeeded. What these have installed (`BroughtIn`) goes again
only if a call that fails has asked for it too (`TakenBack`).

So the rollback is complete precisely when that is so of all that was
brought in, and the commit that failed has left no file
(`install_rolls_back_iff`).
-/

namespace Zmux

/-! ## What uninstall removes -/

/-- A package of `ns` records a file of path `p`. -/
def Owned (ns : List Name) (db : Db) (p : Path) : Prop :=
  p ≠ [] ∧ ∃ n ∈ ns, ∃ record, db.lookup n = some record ∧ ∃ f ∈ record.files, f.path = p

theorem owned_iff {ns : List Name} {db : Db} {p : Path} :
    Owned ns db p ↔ ∃ n ∈ ns, Owned [n] db p := by
  constructor
  · rintro ⟨hroot, n, hn, hrecord⟩
    exact ⟨n, hn, hroot, n, List.mem_singleton_self n, hrecord⟩
  · rintro ⟨n, hn, hroot, m, hm, hrecord⟩
    obtain rfl := List.mem_singleton.mp hm
    exact ⟨hroot, m, hn, hrecord⟩

theorem owned_singleton_iff {n : Name} {db : Db} {p : Path} :
    Owned [n] db p ↔ p ≠ [] ∧ ∃ record, db.lookup n = some record
      ∧ ∃ f ∈ record.files, f.path = p := by
  simp [Owned]

theorem owned_congr {n : Name} {db db' : Db} {p : Path} (h : db'.lookup n = db.lookup n) :
    Owned [n] db' p ↔ Owned [n] db p := by
  rw [owned_singleton_iff, owned_singleton_iff, h]

theorem removeFiles_isSome_iff : ∀ {fs : List RelName} {user : Tree} {p : Path},
    (removeFiles user fs p).isSome = true ↔
      (user p).isSome = true ∧ ∀ f ∈ fs, f.path = p → p = []
  | [], _, _ => by simp [removeFiles]
  | f :: fs, user, p => by
      rw [removeFiles, removeFiles_isSome_iff, List.forall_mem_cons, ← and_assoc]
      refine and_congr_left fun _ => ?_
      split
      · rename_i hroot
        exact (and_iff_left fun hfp => hfp ▸ hroot).symm
      · rename_i hroot
        by_cases hfp : f.path = p
        · subst hfp
          rw [Function.update_self]
          exact iff_of_false Bool.false_ne_true fun h => hroot (h.2 rfl)
        · rw [Function.update_of_ne fun heq => hfp heq.symm]
          exact (and_iff_left fun heq => absurd heq hfp).symm

theorem uninstall_user_iff {package : Name} {w : World} {p : Path} :
    ((uninstall package w).user p).isSome = true ↔
      (w.user p).isSome = true ∧ ¬Owned [package] w.db p := by
  rw [uninstall, owned_singleton_iff]
  split
  · rename_i hnone
    rw [hnone]
    simp
  · rename_i record hsome
    rw [hsome]
    dsimp only
    rw [removeFiles_isSome_iff]
    refine and_congr_right fun _ => ?_
    constructor
    · rintro hfs ⟨hroot, record', heq, f, hf, hfp⟩
      obtain rfl := Option.some.inj heq
      exact hroot (hfs f hf hfp)
    · intro hnot f hf hfp
      by_contra hroot
      exact hnot ⟨hroot, record, rfl, f, hf, hfp⟩

/-- After `uninstallAll` the packages of the list are gone with the files
they recorded, and nothing else is. -/
theorem uninstallAll_iff : ∀ {ns : List Name} {w : World},
    (∀ m ∈ ns, canonicalize m = some m) →
      (∀ n, ((uninstallAll ns w).db.lookup n).isSome = true ↔
        (w.db.lookup n).isSome = true ∧ n ∉ ns)
      ∧ ∀ p, ((uninstallAll ns w).user p).isSome = true ↔
        (w.user p).isSome = true ∧ ¬Owned ns w.db p
  | [], w, _ => by simp [uninstallAll, Owned]
  | m :: ns, w, hcanon => by
      obtain ⟨hdb, huser⟩ := @uninstallAll_iff ns (uninstall m w)
        fun k hk => hcanon k (List.mem_cons_of_mem _ hk)
      have hm : canonicalize m = some m := hcanon m (List.mem_cons_self ..)
      simp only [uninstallAll, hm]
      refine ⟨fun n => ?_, fun p => ?_⟩
      · rw [hdb n, List.mem_cons, not_or, ← and_assoc]
        refine and_congr_left fun _ => ?_
        by_cases hnm : n = m
        · rw [hnm, uninstall_lookup_self]
          simp
        · simp [hnm, uninstall_lookup_ne hnm]
      · have hrest := @owned_iff ns (uninstall m w).db p
        have hall := @owned_iff (m :: ns) w.db p
        rw [huser p, uninstall_user_iff, and_assoc, hrest, hall, List.exists_mem_cons_iff, not_or]
        refine and_congr_right fun _ => and_congr_right fun hself => not_congr ?_
        refine exists_congr fun n => and_congr_right fun _ => ?_
        by_cases hnm : n = m
        · subst hnm
          refine iff_of_false (fun howned => ?_) hself
          obtain ⟨-, record, hlookup, -⟩ := owned_singleton_iff.mp howned
          rw [uninstall_lookup_self] at hlookup
          cases hlookup
        · exact owned_congr (uninstall_lookup_ne hnm)

/-! ## What a wheel adds -/

theorem extractLoop_path : ∀ {members : List (RelName × Content)} {staging staging' : Tree},
    extractLoop members staging = .ok staging' → ∀ m ∈ members, m.1.path ≠ []
  | [], _, _, _, _, hm => (List.not_mem_nil hm).elim
  | (f, content) :: rest, staging, staging', h, m, hm => by
      rw [extractLoop] at h
      split at h
      · cases h
      · rename_i hroot
        rcases List.mem_cons.mp hm with rfl | hm
        · exact hroot
        · exact extractLoop_path h m hm

theorem stage_path {env : Env} {t : Txn} {package : Name} {manifest : Manifest} {db : Db}
    {staged : Staged} (h : stage env t package manifest db = .ok staged) :
    ∀ f ∈ staged.files, f.path ≠ [] := by
  obtain ⟨response, -, hextract, -, -⟩ := stage_ok h
  obtain ⟨listing, members, -, -, hfiles, hloop⟩ := extract_members hextract
  rw [hfiles]
  intro f hf
  obtain ⟨m, hm, rfl⟩ := List.mem_map.mp hf
  exact extractLoop_path hloop m hm

/-- A file of the package directory after a wheel is committed is the
package's own, or it was there and its owner, if it was the package,
still records it. -/
theorem withWheel_user {env : Env} {channel : String} {stack : List Name} {t : Txn}
    {package : Name} {manifest : Manifest} {staged : Staged} {w : World} {p : Path}
    (hstage : ∀ f ∈ staged.files, f.path ≠ [])
    (h : ((withWheel env channel stack t package manifest staged w).user p).isSome = true) :
    Owned [package] (withWheel env channel stack t package manifest staged w).db p
      ∨ (w.user p).isSome = true ∧ ¬Owned [package] w.db p := by
  have hrecord : (withWheel env channel stack t package manifest staged w).db.lookup package
      = some (newRecord t manifest channel stack (w.db.lookup package) staged) :=
    AList.lookup_insert w.db
  by_cases hp : p ∈ staged.files.map RelName.path
  · obtain ⟨f, hf, rfl⟩ := List.mem_map.mp hp
    refine Or.inl ⟨hstage f hf, package, by simp, _, hrecord, f, ?_, rfl⟩
    exact (List.perm_insertionSort _ _).mem_iff.mpr hf
  · have hgone : p ∉ (obsoleteFiles env t (previousFiles w.db package) staged.files).map
        RelName.path := by
      intro hmem
      simp only [withWheel] at h
      rw [erased, overlay_mem hmem] at h
      cases h
    simp only [withWheel] at h
    rw [erased, overlay_notMem hgone, patched, overlay_notMem hp] at h
    refine Or.inr ⟨h, ?_⟩
    rintro ⟨-, n, hn, record, hlookup, f, hf, rfl⟩
    rw [List.mem_singleton.mp hn] at hlookup
    -- the path is that of an old file, and the new wheel does not have it
    refine hgone (List.mem_map_of_mem ((env.order_perm t _).mem_iff.mpr ?_))
    rw [List.mem_filter, List.mem_dedup]
    refine ⟨by simpa [previousFiles, hlookup] using hf, ?_⟩
    exact decide_eq_true fun hmem => hp (List.mem_map_of_mem hmem)

/-! ## What a recursion installs and what it takes back -/

section Recursion

variable (env : Env) (channel : String)

/-- A call of the recursion installs the package. -/
def BroughtIn (c : InstallCall) (n : Name) : Prop :=
  ∃ inner, Relation.TransGen (Nested env channel) c inner ∧ inner.name = n
    ∧ inner.Succeeds env channel

/-- A call that fails has pulled in the package itself. -/
def TakenBack (c : InstallCall) (n : Name) : Prop :=
  ∃ failing inner, Relation.ReflTransGen (Nested env channel) c failing
    ∧ failing.Fails env channel ∧ Nested env channel failing inner ∧ inner.name = n
    ∧ inner.Succeeds env channel

/-- The commit of a call leaves the file, and none of the packages that
this call and those above it take back records it. -/
inductive Strays : InstallCall → Path → Prop
  | commit {c package manifest new w₁ p} :
      c.Loops env channel package manifest none new w₁ →
      WheelStrays env c.world.txns package manifest w₁ p → ¬Owned new w₁.db p → Strays c p
  | dependency {c inner package manifest err new w₁ p} :
      c.Loops env channel package manifest err new w₁ → Nested env channel c inner →
      inner.Fails env channel → Strays inner p → ¬Owned new w₁.db p → Strays c p

variable {env channel} {c inner : InstallCall} {package : Name} {manifest : Manifest}
  {err : Option Error} {new : List Name} {w₁ w' : World} {n : Name} {p : Path}

theorem InstallCall.Loops.canonical (h : c.Loops env channel package manifest err new w₁) :
    ∀ m ∈ new.reverse, canonicalize m = some m := by
  intro m hm
  obtain ⟨inner, hnested, rfl, -⟩ := h.mem_new_iff.mp (List.mem_reverse.mp hm)
  exact hnested.asks.1

/-- A call that fails behind its loop takes back its list. -/
theorem InstallCall.Loops.failed_result (h : c.Loops env channel package manifest err new w₁)
    {r : Failed} (hresult : c.result env channel = some (.failed r, w')) :
    ∃ user, w' = uninstallAll new.reverse { w₁ with user := user }
      ∧ (err ≠ none ∧ user = w₁.user ∨ err = none ∧ ∀ p,
        ((user p).isSome = true → (w₁.user p).isSome = true
          ∨ WheelStrays env c.world.txns package manifest w₁ p)
        ∧ (WheelStrays env c.world.txns package manifest w₁ p → (user p).isSome = true)) := by
  cases err with
  | some e =>
      rw [h.result_some] at hresult
      obtain ⟨-, rfl⟩ := Prod.mk.injEq .. |>.mp (Option.some.inj hresult)
      exact ⟨w₁.user, rfl, Or.inl ⟨nofun, rfl⟩⟩
  | none =>
      rw [h.result_none] at hresult
      rcases installWheel_cases env channel c.stack c.world.txns package manifest new w₁ with
        ⟨e, user, heq, huser⟩ | ⟨staged, r', -, heq⟩
      · rw [heq] at hresult
        obtain ⟨-, rfl⟩ := Prod.mk.injEq .. |>.mp (Option.some.inj hresult)
        exact ⟨user, rfl, Or.inr ⟨rfl, huser⟩⟩
      · rw [heq] at hresult
        cases hresult

/-- A call that succeeds commits its wheel. -/
theorem InstallCall.Loops.installed_result
    (h : c.Loops env channel package manifest err new w₁) {r : Installed}
    (hresult : c.result env channel = some (.installed r, w')) :
    err = none ∧ ∃ staged, stage env c.world.txns package manifest w₁.db = .ok staged
      ∧ w' = withWheel env channel c.stack c.world.txns package manifest staged w₁ := by
  cases err with
  | some e =>
      rw [h.result_some] at hresult
      cases hresult
  | none =>
      rw [h.result_none] at hresult
      rcases installWheel_cases env channel c.stack c.world.txns package manifest new w₁ with
        ⟨e, user, heq, -⟩ | ⟨staged, r', hstage, heq⟩
      · rw [heq] at hresult
        cases hresult
      · rw [heq] at hresult
        obtain ⟨-, rfl⟩ := Prod.mk.injEq .. |>.mp (Option.some.inj hresult)
        exact ⟨rfl, staged, hstage, rfl⟩

/-! ## The database -/

/-- What a call leaves behind its loop: all that was installed, but for the
list if the call fails. -/
theorem InstallCall.Loops.leaves (h : c.Loops env channel package manifest err new w₁)
    {result : Result} (hresult : c.result env channel = some (result, w'))
    (hn : (w₁.db.lookup n).isSome = true) (hkept : result.ok = true ∨ n ∉ new) :
    (w'.db.lookup n).isSome = true := by
  cases result with
  | failed r =>
      obtain ⟨user, rfl, -⟩ := h.failed_result hresult
      refine ((uninstallAll_iff h.canonical).1 n).mpr ⟨hn, fun hmem => ?_⟩
      exact hkept.elim (fun hok => by cases hok) fun hnew => hnew (List.mem_reverse.mp hmem)
  | installed r =>
      obtain ⟨-, staged, -, rfl⟩ := h.installed_result hresult
      by_cases hnp : n = package
      · rw [hnp, withWheel, AList.lookup_insert]
        rfl
      · rwa [(withWheel_untouched hnp).1]

/-- What is new after a call is its own package, or was brought in. -/
theorem result_new {result : Result} (hresult : c.result env channel = some (result, w'))
    (hn : (w'.db.lookup n).isSome = true) :
    (c.world.db.lookup n).isSome = true ∨ result.ok = true ∧ canonicalize c.name = some n
      ∨ BroughtIn env channel c n := by
  induction hfuel : c.fuel generalizing c result w' with
  | zero =>
      rw [InstallCall.result, hfuel, install] at hresult
      cases hresult
  | succ fuel ih =>
      rcases result_cases hresult with
        ⟨r, rfl, hdb, -, -⟩ | ⟨package, manifest, err, new, w₁, hloops, -⟩
      · exact Or.inl (hdb ▸ hn)
      · have hloop : (w₁.db.lookup n).isSome = true → (c.world.db.lookup n).isSome = true
            ∨ BroughtIn env channel c n := by
          intro hn
          rcases hloops.added hn with hold | ⟨inner, out, w₂, hnested, hinner, hnew, hnone⟩
          · exact Or.inl hold
          · have hfuel' : inner.fuel = fuel :=
              Nat.succ.inj ((hloops.nested_iff.mp hnested).1.symm.trans hfuel)
            refine Or.inr ?_
            rcases ih hinner hnew hfuel' with hold | ⟨hok, hname⟩ | ⟨deeper, hpath, hrest⟩
            · rw [hnone] at hold
              cases hold
            · rw [hnested.asks.1] at hname
              cases out with
              | failed r => cases hok
              | installed r => exact ⟨inner, .single hnested, Option.some.inj hname, r, w₂, hinner⟩
            · exact ⟨deeper, .head hnested hpath, hrest⟩
        cases result with
        | failed r =>
            obtain ⟨user, rfl, -⟩ := hloops.failed_result hresult
            exact (hloop (((uninstallAll_iff hloops.canonical).1 n).mp hn).1).imp_right Or.inr
        | installed r =>
            obtain ⟨-, staged, -, rfl⟩ := hloops.installed_result hresult
            by_cases hnp : n = package
            · obtain ⟨_, _, hname, _⟩ := hloops
              exact Or.inr (Or.inl ⟨rfl, hnp ▸ hname⟩)
            · rw [(withWheel_untouched hnp).1] at hn
              exact (hloop hn).imp_right Or.inr

theorem BroughtIn.absent (h : BroughtIn env channel c n) : c.world.db.lookup n = none := by
  obtain ⟨inner, hpath, rfl, -⟩ := h
  induction hpath using Relation.TransGen.head_induction_on with
  | single hnested => exact hnested.asks.2
  | head hnested _ ih =>
      by_contra hthere
      have hkept := hnested.keeps (Option.ne_none_iff_isSome.mp hthere)
      rw [ih] at hkept
      cases hkept

/-- What is brought in stays, unless a call that fails has pulled it in. -/
theorem BroughtIn.stays (h : BroughtIn env channel c n) {result : Result}
    (hresult : c.result env channel = some (result, w'))
    (hkept : result.ok = true ∨ ¬TakenBack env channel c n) :
    (w'.db.lookup n).isSome = true := by
  obtain ⟨inner, hpath, rfl, hsucceeds⟩ := h
  have hlist {c : InstallCall} {package manifest err new w₁ w'} {result : Result}
      (hloops : c.Loops env channel package manifest err new w₁)
      (hresult : c.result env channel = some (result, w'))
      (hkept : result.ok = true ∨ ¬TakenBack env channel c inner.name) :
      result.ok = true ∨ inner.name ∉ new := by
    cases result with
    | installed r => exact Or.inl rfl
    | failed r =>
        refine hkept.imp_right fun hnot hmem => ?_
        obtain ⟨pulled, hnested, hname, hpulled⟩ := hloops.mem_new_iff.mp hmem
        exact hnot ⟨c, pulled, .refl, ⟨r, w', hresult⟩, hnested, hname, hpulled⟩
  induction hpath using Relation.TransGen.head_induction_on generalizing result w' with
  | single hnested =>
      obtain ⟨_, _, _, new, w₁, hloops⟩ := hnested.loops hresult
      obtain ⟨r, w₂, hinstalled⟩ := hsucceeds
      have hthere := (hloops.installed hnested hinstalled).2 _
        (installed_isSome hinstalled hnested.asks.1)
      exact hloops.leaves hresult hthere (hlist hloops hresult hkept)
  | @head c mid hnested hpath ih =>
      obtain ⟨_, _, err, new, w₁, hloops⟩ := hnested.loops hresult
      obtain ⟨out, w₂, hmid⟩ := nested_returns hnested (by rw [hresult]; nofun)
      refine hloops.leaves hresult ?_ (hlist hloops hresult hkept)
      cases out with
      | installed r => exact (hloops.installed hnested hmid).2 _ (ih hmid (Or.inl rfl))
      | failed r =>
          obtain ⟨-, rfl⟩ := hloops.failed hnested hmid
          refine ih hmid (Or.inr fun htaken => ?_)
          obtain ⟨failing, pulled, hdeeper, hfails, hrest⟩ := htaken
          obtain ⟨r', w₃, hfailed⟩ := fails_of_nested (.head hnested hdeeper) hfails
          rw [hresult] at hfailed
          obtain ⟨rfl, -⟩ := Prod.mk.injEq .. |>.mp (Option.some.inj hfailed)
          exact hkept.elim (fun hok => by cases hok) fun hnot =>
            hnot ⟨failing, pulled, .head hnested hdeeper, hfails, hrest⟩

/-- What a call that fails has pulled in is gone. -/
theorem TakenBack.gone (h : TakenBack env channel c n) {r : Failed}
    (hresult : c.result env channel = some (.failed r, w')) : w'.db.lookup n = none := by
  obtain ⟨failing, pulled, hpath, hfails, hpulled, hname, hsucceeds⟩ := h
  have hundone {c : InstallCall} {package manifest err new w₁ w'} {r : Failed}
      (hloops : c.Loops env channel package manifest err new w₁)
      (hresult : c.result env channel = some (.failed r, w'))
      (hgone : n ∈ new ∨ w₁.db.lookup n = none) : w'.db.lookup n = none := by
    obtain ⟨user, rfl, -⟩ := hloops.failed_result hresult
    rw [← Option.not_isSome_iff_eq_none]
    intro hn
    obtain ⟨hthere, hlist⟩ := ((uninstallAll_iff hloops.canonical).1 n).mp hn
    rcases hgone with hmem | hnone
    · exact hlist (List.mem_reverse.mpr hmem)
    · dsimp only at hthere
      rw [hnone] at hthere
      cases hthere
  induction hpath using Relation.ReflTransGen.head_induction_on generalizing r w' with
  | refl =>
      obtain ⟨_, _, _, new, w₁, hloops⟩ := hpulled.loops hresult
      exact hundone hloops hresult
        (Or.inl (hloops.mem_new_iff.mpr ⟨pulled, hpulled, hname, hsucceeds⟩))
  | head hnested hdeeper ih =>
      obtain ⟨_, _, _, new, w₁, hloops⟩ := hnested.loops hresult
      obtain ⟨r', w₂, hmid⟩ := fails_of_nested hdeeper hfails
      obtain ⟨-, rfl⟩ := hloops.failed hnested hmid
      exact hundone hloops hresult (Or.inr (ih hmid))

/-! ## The files -/

/-- The files of `w` were there in `base`, or a package that was not is
recorded with them. -/
def FilesFrom (base w : World) : Prop :=
  ∀ p, (w.user p).isSome = true → (base.user p).isSome = true
    ∨ ∃ n, base.db.lookup n = none ∧ Owned [n] w.db p

/-- Nothing that was installed in `base` is missing in `w`, and no file is
unaccounted for. -/
structure GrownFrom (base w : World) : Prop where
  names : ∀ n, (base.db.lookup n).isSome = true → (w.db.lookup n).isSome = true
  files : FilesFrom base w

/-- A call that succeeds for a package that was not installed accounts for
its files. -/
theorem installed_grown {base : World} {r : Installed}
    (hresult : c.result env channel = some (.installed r, w'))
    (hname : canonicalize c.name = some package) (hbase : base.db.lookup package = none)
    (hgrown : GrownFrom base c.world) : GrownFrom base w' := by
  induction hfuel : c.fuel generalizing c package r w' with
  | zero =>
      rw [InstallCall.result, hfuel, install] at hresult
      cases hresult
  | succ fuel ih =>
      rcases result_cases hresult with
        ⟨r, hr, -⟩ | ⟨package', manifest, err, new, w₁, hloops, -⟩
      · cases hr
      obtain ⟨rfl, staged, hstage, rfl⟩ := hloops.installed_result hresult
      obtain rfl : package' = package := by
        obtain ⟨_, _, hname', _⟩ := hloops
        exact Option.some.inj (hname'.symm.trans hname)
      have hloop : GrownFrom base w₁ := by
        refine (hloops.ends (GrownFrom base) (fun inner r w' hnested hinner hgrown' => ?_)
          ⟨hgrown.names, hgrown.files⟩).resolve_right ?_
        · refine ih hinner hnested.asks.1 ?_ hgrown'
            (Nat.succ.inj ((hloops.nested_iff.mp hnested).1.symm.trans hfuel))
          refine Option.not_isSome_iff_eq_none.mp fun hthere => ?_
          have hkept := hgrown.names _ hthere
          rw [hnested.asks.2] at hkept
          cases hkept
        · rintro ⟨_, _, _, _, _, herr⟩
          exact herr rfl
      refine ⟨fun n hn => hloops.leaves hresult (hloop.names n hn) (Or.inl rfl), fun p hp => ?_⟩
      rcases withWheel_user (stage_path hstage) hp with hown | ⟨hp', hother⟩
      · exact Or.inr ⟨_, hbase, hown⟩
      · refine (hloop.files p hp').imp_right ?_
        rintro ⟨n, hn, howned⟩
        have hne : n ≠ package' := fun heq => hother (heq ▸ howned)
        exact ⟨n, hn, (owned_congr (withWheel_untouched hne).1).mpr howned⟩

/-- The files that a call leaves that fails. -/
theorem failed_files {base : World} {r : Failed}
    (hresult : c.result env channel = some (.failed r, w')) (hgrown : GrownFrom base c.world)
    (hp : (w'.user p).isSome = true) :
    (base.user p).isSome = true ∨ (∃ n, base.db.lookup n = none ∧ Owned [n] w'.db p)
      ∨ Strays env channel c p := by
  induction hfuel : c.fuel generalizing c r w' with
  | zero =>
      rw [InstallCall.result, hfuel, install] at hresult
      cases hresult
  | succ fuel ih =>
      rcases result_cases hresult with
        ⟨r, hr, hdb, huser, -⟩ | ⟨package, manifest, err, new, w₁, hloops, -⟩
      · rw [huser] at hp
        rw [hdb]
        exact (hgrown.files p hp).imp_right Or.inl
      obtain ⟨user, rfl, hend⟩ := hloops.failed_result hresult
      obtain ⟨hp', hlist⟩ := ((uninstallAll_iff hloops.canonical).2 p).mp hp
      dsimp only at hp' hlist
      -- what the rollback does not touch is still recorded
      have hrecorded (howned : ∃ n, base.db.lookup n = none ∧ Owned [n] w₁.db p) :
          ∃ n, base.db.lookup n = none
            ∧ Owned [n] (uninstallAll new.reverse { w₁ with user := user }).db p := by
        obtain ⟨n, hn, howned⟩ := howned
        refine ⟨n, hn, (owned_congr ?_).mpr howned⟩
        have hmem : n ∉ new.reverse := fun hmem => hlist (owned_iff.mpr ⟨n, hmem, howned⟩)
        exact (uninstallAll_frame new.reverse { w₁ with user := user } hloops.canonical hmem).1
      have hunlisted : ¬Owned new w₁.db p := by
        intro howned
        obtain ⟨n, hn, howned'⟩ := owned_iff.mp howned
        exact hlist (owned_iff.mpr ⟨n, List.mem_reverse.mpr hn, howned'⟩)
      have hstart : GrownFrom base { c.world with txns := c.world.txns + 1 } :=
        ⟨hgrown.names, hgrown.files⟩
      have hcall (inner : InstallCall) (r : Installed) (w' : World)
          (hnested : Nested env channel c inner)
          (hinner : inner.result env channel = some (.installed r, w'))
          (hgrown' : GrownFrom base inner.world) : GrownFrom base w' := by
        refine installed_grown hinner hnested.asks.1 ?_ hgrown'
        refine Option.not_isSome_iff_eq_none.mp fun hthere => ?_
        have hkept := hgrown.names _ hthere
        rw [hnested.asks.2] at hkept
        cases hkept
      rcases hend with ⟨herr, rfl⟩ | ⟨rfl, huser⟩
      · rcases hloops.ends (GrownFrom base) hcall hstart with
          hloop | ⟨inner, r', hnested, hinner, hgrown', -⟩
        · exact (hloop.files p hp').imp_right fun howned => Or.inl (hrecorded howned)
        · have hfuel' : inner.fuel = fuel :=
            Nat.succ.inj ((hloops.nested_iff.mp hnested).1.symm.trans hfuel)
          rcases ih hinner hgrown' hp' hfuel' with hold | howned | hstrays
          · exact Or.inl hold
          · exact Or.inr (Or.inl (hrecorded howned))
          · exact Or.inr (Or.inr
              (.dependency hloops hnested ⟨r', w₁, hinner⟩ hstrays hunlisted))
      · have hloop : GrownFrom base w₁ := by
          refine (hloops.ends (GrownFrom base) hcall hstart).resolve_right ?_
          rintro ⟨_, _, _, _, _, herr⟩
          exact herr rfl
        rcases (huser p).1 hp' with hold | hstray
        · exact (hloop.files p hold).imp_right fun howned => Or.inl (hrecorded howned)
        · exact Or.inr (Or.inr (.commit hloops hstray hunlisted))

theorem Strays.there (h : Strays env channel c p) {r : Failed}
    (hresult : c.result env channel = some (.failed r, w')) : (w'.user p).isSome = true := by
  have hkept {c : InstallCall} {package manifest err new w₁} {user : Tree}
      (hloops : c.Loops env channel package manifest err new w₁)
      (hp : (user p).isSome = true) (hlist : ¬Owned new w₁.db p) :
      ((uninstallAll new.reverse { w₁ with user := user }).user p).isSome = true := by
    refine ((uninstallAll_iff hloops.canonical).2 p).mpr ⟨hp, fun howned => hlist ?_⟩
    obtain ⟨n, hn, howned'⟩ := owned_iff.mp howned
    exact owned_iff.mpr ⟨n, List.mem_reverse.mp hn, howned'⟩
  induction h generalizing r w' with
  | commit hloops hstray hlist =>
      obtain ⟨user, rfl, ⟨herr, -⟩ | ⟨-, huser⟩⟩ := hloops.failed_result hresult
      · exact absurd rfl herr
      · exact hkept hloops ((huser _).2 hstray) hlist
  | dependency hloops hnested hfails _ hlist ih =>
      obtain ⟨r', w₂, hinner⟩ := hfails
      obtain ⟨herr, rfl⟩ := hloops.failed hnested hinner
      obtain ⟨user, rfl, ⟨-, rfl⟩ | ⟨hnone, -⟩⟩ := hloops.failed_result hresult
      · exact hkept hloops (ih hinner hkept) hlist
      · exact absurd hnone herr

/-- **The rollback is complete** precisely when every package that the
recursion installed was pulled in by a call that failed, and the commit
that failed left no file. -/
theorem install_rolls_back_iff {fuel : ℕ} {name : String} {version : Option String}
    {w w' : World} {result : Result}
    (h : install env channel fuel [] name version w = some (result, w'))
    (hfailed : result.ok = false) :
    ((∀ n, (w'.db.lookup n).isSome = true → (w.db.lookup n).isSome = true)
        ∧ ∀ p, (w'.user p).isSome = true → (w.user p).isSome = true)
      ↔ (∀ n, BroughtIn env channel ⟨fuel, [], name, version, w⟩ n →
          TakenBack env channel ⟨fuel, [], name, version, w⟩ n)
        ∧ ∀ p, Strays env channel ⟨fuel, [], name, version, w⟩ p →
          (w.user p).isSome = true := by
  cases result with
  | installed r => cases hfailed
  | failed r =>
      have hresult : InstallCall.result env channel ⟨fuel, [], name, version, w⟩
          = some (.failed r, w') := h
      constructor
      · rintro ⟨hnames, hfiles⟩
        refine ⟨fun n hbrought => ?_, fun p hstrays => hfiles p (hstrays.there hresult)⟩
        by_contra hnot
        have hthere := hnames n (hbrought.stays hresult (Or.inr hnot))
        rw [show w.db.lookup n = none from hbrought.absent] at hthere
        cases hthere
      · rintro ⟨htaken, hstrays⟩
        have hnames (n : Name) (hn : (w'.db.lookup n).isSome = true) :
            (w.db.lookup n).isSome = true := by
          rcases result_new hresult hn with hold | ⟨hok, -⟩ | hbrought
          · exact hold
          · cases hok
          · rw [(htaken n hbrought).gone hresult] at hn
            cases hn
        refine ⟨hnames, fun p hp => ?_⟩
        rcases failed_files hresult ⟨fun _ hn => hn, fun _ hp => Or.inl hp⟩ hp with
          hold | ⟨n, hnone, howned⟩ | hstray
        · exact hold
        · obtain ⟨-, record, hlookup, -⟩ := owned_singleton_iff.mp howned
          have hthere := hnames n (by rw [hlookup]; rfl)
          rw [hnone] at hthere
          cases hthere
        · exact hstrays p hstray

end Recursion

/-! ## A package that stays behind

`p` needs `a`, `a` needs what `aNeeds` lists, and the download of `p`
fails. If `a` needs `b`, then `b` stays; if `a` needs nothing, then `a`
is rolled back. -/

def leafWheel (module : String) : List Member :=
  [⟨module ++ ".py", 1, [1]⟩, ⟨module ++ ".dist-info/WHEEL", 0, []⟩,
    ⟨module ++ ".dist-info/RECORD", 0, []⟩]

def leafManifest (url : String) (dependencies : List String) : Manifest :=
  { demoManifest with url := url, dependencies := dependencies }

def chainEnv (aNeeds : List String) : Env where
  packaging := ⟨fun s => some ⟨s, [], none⟩, fun _ => true, fun _ _ => true⟩
  runtimeId := "r"
  abi := "a"
  curated _ := some fun n =>
    if n = "p" then some (leafManifest "https://p" ["a"])
    else if n = "a" then some (leafManifest "https://a" aNeeds)
    else if n = "b" then some (leafManifest "https://b" [])
    else none
  pypi _ _ _ := none
  fetch _ url :=
    if url = "https://a" then some ⟨1, 1, demoDigest, some (leafWheel "a")⟩
    else if url = "https://b" then some ⟨1, 1, demoDigest, some (leafWheel "b")⟩
    else none
  fault _ _ := false
  copied _ _ := none
  order _ l := l
  order_perm _ l := List.Perm.refl l

def emptyWorld : World where
  db := ∅
  user _ := none
  txns := 0
  needs _ := []

theorem failed_install_leaves_transitive :
    (install (chainEnv ["b"]) "stable" 4 [] "p" none emptyWorld).map
        (fun out => (out.1.ok, (out.2.db.lookup "b").isSome, out.2.user ["b.py"]))
      = some (false, true, some [1])
      ∧ emptyWorld.db.lookup "b" = none ∧ emptyWorld.user ["b.py"] = none := by
  decide +kernel


/-- `p` asks for `a`, and `a` for nothing. -/
theorem leaf_nested {inner : InstallCall}
    (h : Relation.TransGen (Nested (chainEnv []) "stable") ⟨4, [], "p", none, emptyWorld⟩ inner) :
    inner = ⟨3, ["p"], "a", none, { emptyWorld with txns := 1 }⟩ := by
  have hp : canonicalize "p" = some "p" := by decide
  have ha : canonicalize "a" = some "a" := by decide
  have hpm : resolve (chainEnv []) 0 "p" none "stable" = .ok (leafManifest "https://p" ["a"]) := rfl
  have ham : resolve (chainEnv []) 1 "a" none "stable" = .ok (leafManifest "https://a" []) := rfl
  have hfirst {inner : InstallCall}
      (h : Nested (chainEnv []) "stable" ⟨4, [], "p", none, emptyWorld⟩ inner) :
      inner = ⟨3, ["p"], "a", none, { emptyWorld with txns := 1 }⟩ := by
    cases h with
    | call hname _ hresolve hinv =>
        obtain rfl := Option.some.inj (hp.symm.trans hname)
        obtain rfl := Except.ok.inj (hpm.symm.trans hresolve)
        cases hinv with
        | now hname' =>
            obtain rfl := Option.some.inj (ha.symm.trans hname')
            rfl
        | later _ hrest => cases hrest
  have hsecond {inner : InstallCall} (h : Nested (chainEnv []) "stable"
      ⟨3, ["p"], "a", none, { emptyWorld with txns := 1 }⟩ inner) : False := by
    cases h with
    | call hname _ hresolve hinv =>
        obtain rfl := Option.some.inj (ha.symm.trans hname)
        obtain rfl := Except.ok.inj (ham.symm.trans hresolve)
        cases hinv
  induction h with
  | single hnested => exact hfirst hnested
  | tail _ hnested ih => exact (hsecond (ih ▸ hnested)).elim

theorem install_rolls_back_leaf :
    ∃ result w', install (chainEnv []) "stable" 4 [] "p" none emptyWorld = some (result, w')
      ∧ result.ok = false
      ∧ (∀ n, (w'.db.lookup n).isSome = true → (emptyWorld.db.lookup n).isSome = true)
      ∧ ∀ p, (w'.user p).isSome = true → (emptyWorld.user p).isSome = true := by
  have hp : canonicalize "p" = some "p" := by decide
  have ha : canonicalize "a" = some "a" := by decide
  have hok : (install (chainEnv []) "stable" 4 [] "p" none emptyWorld).map (·.1.ok)
      = some false := by decide +kernel
  have haok : (install (chainEnv []) "stable" 3 ["p"] "a" none
      { emptyWorld with txns := 1 }).map (·.1.ok) = some true := by decide +kernel
  have hnested : Nested (chainEnv []) "stable" ⟨4, [], "p", none, emptyWorld⟩
      ⟨3, ["p"], "a", none, { emptyWorld with txns := 1 }⟩ :=
    .call hp List.not_mem_nil rfl (.now ha rfl)
  cases hrun : install (chainEnv []) "stable" 4 [] "p" none emptyWorld with
  | none => rw [hrun] at hok; cases hok
  | some out =>
      rw [hrun] at hok
      have hfailed : out.1.ok = false := Option.some.inj hok
      refine ⟨out.1, out.2, rfl, hfailed, (install_rolls_back_iff hrun hfailed).mpr ⟨?_, ?_⟩⟩
      · rintro n ⟨inner, hpath, rfl, hsucceeds⟩
        obtain rfl := leaf_nested hpath
        refine ⟨_, _, .refl, ?_, hnested, rfl, hsucceeds⟩
        obtain ⟨result, w'⟩ := out
        cases result with
        | installed r => cases hfailed
        | failed r => exact ⟨r, w', hrun⟩
      · intro p hstrays
        cases hstrays with
        | commit hloops hstray =>
            obtain ⟨_, _, hname, _, hresolve, _⟩ := hloops
            obtain rfl := Option.some.inj (hp.symm.trans hname)
            obtain ⟨staged, hstage, -⟩ := hstray
            obtain ⟨response, hdownload, -⟩ := stage_ok hstage
            have hmanifest : resolve (chainEnv []) 0 "p" none "stable"
                = .ok (leafManifest "https://p" ["a"]) := rfl
            obtain rfl := Except.ok.inj (hmanifest.symm.trans hresolve)
            cases (download_ok hdownload).1
        | dependency _ hcall hfails =>
            obtain rfl := leaf_nested (.single hcall)
            obtain ⟨r, w, hresult⟩ := hfails
            rw [InstallCall.result] at hresult
            rw [hresult] at haok
            cases haok

end Zmux
