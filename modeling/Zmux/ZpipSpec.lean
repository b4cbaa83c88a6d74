import Mathlib.Data.List.Perm.Subperm
import Zmux.ZpipAtomic

/-!
# What a call of install can do

One inversion lemma for each function of `ZpipInstall`, guards included,
so that the results about whole recursions never unfold them:
`commitTree_installed`/`commitTree_failed` for the commit,
`installWheel_cases` for everything behind the dependency loop,
`install_cases` for a call. The dependency loop has an invariant rule
(`installDependencies_rule`): an invariant that every successful turn
(`Turn`) keeps holds when the loop is through, and holds before the turn
that ended it otherwise (`Stop`).

Two consequences for the recursion. A call changes the record of no
package that was installed when it started, except the one it was asked
for (`install_frame`). Over finitely many names it returns
(`install_returns`): the names on the recursion stack are distinct.
-/

namespace Zmux

/-! ## uninstall -/

theorem uninstall_lookup_ne {package n : Name} {w : World} (h : n ≠ package) :
    (uninstall package w).db.lookup n = w.db.lookup n := by
  unfold uninstall
  split
  · rfl
  · exact AList.lookup_erase_ne h

theorem uninstall_lookup_self (package : Name) (w : World) :
    (uninstall package w).db.lookup package = none := by
  unfold uninstall
  split
  · rename_i h
    exact h
  · exact AList.lookup_erase package w.db

theorem uninstall_needs (package : Name) (w : World) :
    (uninstall package w).needs = w.needs := by
  unfold uninstall
  split <;> rfl

/-- `uninstallAll` leaves every package that is not on its list alone. -/
theorem uninstallAll_frame : ∀ (ns : List Name) (w : World) {n : Name},
    (∀ m ∈ ns, canonicalize m = some m) → n ∉ ns →
      (uninstallAll ns w).db.lookup n = w.db.lookup n
        ∧ (uninstallAll ns w).needs n = w.needs n
  | [], _, _, _, _ => ⟨rfl, rfl⟩
  | m :: ns, w, n, hcanon, hn => by
      rw [List.mem_cons, not_or] at hn
      have hm : canonicalize m = some m := hcanon m (List.mem_cons_self ..)
      obtain ⟨hdb, hneeds⟩ := uninstallAll_frame ns (uninstall m w)
        (fun k hk => hcanon k (List.mem_cons_of_mem _ hk)) hn.2
      simp only [uninstallAll, hm]
      exact ⟨hdb.trans (uninstall_lookup_ne hn.1),
        hneeds.trans (by rw [uninstall_needs])⟩

/-! ## The commit -/

/-- A commit that goes through installs the staged files and unlinks the
obsolete ones. -/
theorem commitTree_installed {env : Env} {t : Txn} {package : Name} {db : Db} {staged : Staged}
    {user user' : Tree} (hstaged : AllStaged staged.staging staged.files)
    (h : commitTree env t package db staged user = (user', none)) :
    user' = erased (patched user staged)
      (obsoleteFiles env t (previousFiles db package) staged.files) := by
  rcases commitTree_cases env t package db user hstaged with
    ⟨done, f, rest, c, e, -, -, -, -, hcommit⟩
    | ⟨-, gone, rest, hsplit, -, -, ⟨-, e, hcommit⟩ | ⟨rfl, -, hcommit⟩⟩
  · rw [hcommit] at h; cases h
  · rw [hcommit] at h; cases h
  · rw [hcommit] at h
    obtain ⟨rfl, -⟩ := Prod.mk.injEq .. |>.mp h
    rw [hsplit, List.append_nil]

/-- The files can be committed up to a second spelling of the path `p`, of
which there was no file before: its backup is one for the rollback. -/
def AliasStrays (fault : Op → Bool) (copied : RelName → Option ℕ) (user staging : Tree)
    (files : List RelName) (p : Path) : Prop :=
  ∃ done f rest, files = done ++ f :: rest ∧ Passes (FilePasses fault user) done
    ∧ f.path ∈ done.map RelName.path ∧ f.path = p ∧ user p = none
    ∧ (aliasBackup fault copied user staging f).isSome = true

/-- The files that a commit that fails adds. -/
theorem commitTree_failed {env : Env} {t : Txn} {package : Name} {db : Db} {staged : Staged}
    {user user' : Tree} {e : Error} (hstaged : AllStaged staged.staging staged.files)
    (h : commitTree env t package db staged user = (user', some e)) (p : Path) :
    ((user' p).isSome = true → (user p).isSome = true
        ∨ AliasStrays (env.fault t) (env.copied t) user staged.staging staged.files p)
      ∧ (AliasStrays (env.fault t) (env.copied t) user staged.staging staged.files p →
        (user' p).isSome = true) := by
  rcases commitTree_cases env t package db user hstaged with
    ⟨done, f, rest, c, e, hfiles, hdone, hf, hturn, hcommit⟩
    | ⟨hpass, gone, rest, hsplit, -, -, ⟨-, e, hcommit⟩ | ⟨rfl, -, hcommit⟩⟩
  · obtain ⟨c', e', hturn', hundo⟩ :=
      commitFile_halts (env.copied t) (nodup_of_passes hdone) hf
    obtain ⟨rfl, -⟩ := Prod.mk.injEq .. |>.mp (hturn.symm.trans hturn')
    rw [hcommit, hundo] at h
    obtain ⟨rfl, -⟩ := Prod.mk.injEq .. |>.mp h
    constructor
    · intro hp
      split at hp
      · rename_i hmem
        by_cases hpf : p = f.path
        · rw [hpf, Function.update_self] at hp
          cases hu : user p with
          | some content => exact Or.inl rfl
          | none => exact Or.inr ⟨done, f, rest, hfiles, hdone, hmem, hpf.symm, hu, hp⟩
        · rw [Function.update_of_ne hpf] at hp
          exact Or.inl hp
      · exact Or.inl hp
    · rintro ⟨done', f', rest', hfiles', hdone', hmem, rfl, -, hbackup⟩
      obtain ⟨rfl, rfl⟩ := alias_stops hdone hf (hfiles.symm.trans hfiles') hdone' hmem
      rwa [if_pos hmem, Function.update_self]
  · rw [hcommit] at h
    obtain ⟨rfl, -⟩ := Prod.mk.injEq .. |>.mp h
    refine ⟨fun hp => Or.inl ?_, fun ⟨done, f, rest, hfiles, _, hmem, _⟩ => ?_⟩
    swap
    · rw [hfiles] at hpass
      exact (hpass.next.1 hmem).elim
    have hplain := nodup_of_passes hpass
    rw [rollback_eq_overlay _ _ _ (by rwa [List.map_reverse, List.nodup_reverse])] at hp
    by_cases hmem : p ∈ staged.files.map RelName.path
    · rwa [overlay_mem (by simpa using hmem), Commit.after_backup, overlay_mem hmem] at hp
    · rw [overlay_notMem (by simpa using hmem)] at hp
      by_cases hgone : p ∈ gone.map RelName.path
      · rw [erased, overlay_mem hgone] at hp; cases hp
      · rwa [erased, overlay_notMem hgone, patched, overlay_notMem hmem] at hp
  · rw [hcommit] at h; cases h

/-! ## Behind the dependency loop -/

/-- The world after the wheel of `package` is committed. -/
def withWheel (env : Env) (channel : String) (stack : List Name) (t : Txn) (package : Name)
    (manifest : Manifest) (staged : Staged) (w : World) : World :=
  { w with
    db := w.db.insert package
      (newRecord t manifest channel stack (w.db.lookup package) staged)
    user := erased (patched w.user staged)
      (obsoleteFiles env t (previousFiles w.db package) staged.files)
    needs := Function.update w.needs package (manifestRequirements env.packaging manifest) }

/-- The wheel can be staged, and its commit leaves a file at `p`. -/
def WheelStrays (env : Env) (t : Txn) (package : Name) (manifest : Manifest) (w : World)
    (p : Path) : Prop :=
  ∃ staged, stage env t package manifest w.db = .ok staged
    ∧ AliasStrays (env.fault t) (env.copied t) w.user staged.staging staged.files p

theorem installWheel_cases (env : Env) (channel : String) (stack : List Name) (t : Txn)
    (package : Name) (manifest : Manifest) (new : List Name) (w : World) :
    (∃ e user, installWheel env channel stack t package manifest new w
          = (.failed ⟨package, e, true⟩, uninstallAll new.reverse { w with user := user })
        ∧ ∀ p, ((user p).isSome = true →
            (w.user p).isSome = true ∨ WheelStrays env t package manifest w p)
          ∧ (WheelStrays env t package manifest w p → (user p).isSome = true))
    ∨ ∃ staged r, stage env t package manifest w.db = .ok staged
        ∧ installWheel env channel stack t package manifest new w
          = (.installed r, withWheel env channel stack t package manifest staged w) := by
  cases hstage : stage env t package manifest w.db with
  | error e =>
      refine Or.inl ⟨e, w.user, by simp only [installWheel, hstage],
        fun p => ⟨Or.inl, fun ⟨staged, hstaged, _⟩ => ?_⟩⟩
      cases hstage.symm.trans hstaged
  | ok staged =>
      have hstaged := stage_allStaged hstage
      rcases hcommit : commitTree env t package w.db staged w.user with ⟨user, _ | e⟩
      · refine Or.inr ⟨staged, ⟨package, manifest.version, staged.files.length, staged.sha256,
          new, toolCollisionWarning package⟩, rfl, ?_⟩
        rw [commitTree_installed hstaged hcommit] at hcommit
        simp only [installWheel, hstage, hcommit]
        rfl
      · refine Or.inl ⟨e, user, by simp only [installWheel, hstage, hcommit], fun p => ?_⟩
        obtain ⟨hadds, hleaves⟩ := commitTree_failed hstaged hcommit p
        refine ⟨fun hp => (hadds hp).imp_right fun hstray => ⟨staged, hstage, hstray⟩, ?_⟩
        rintro ⟨staged', hstage', hstray⟩
        obtain rfl := Except.ok.inj (hstage.symm.trans hstage')
        exact hleaves hstray

/-! ## The dependency loop -/

section Loop

variable (packaging : Packaging) (call : Name → Option String → World → Option (Result × World))
  (before : Db)

/-- A turn of the dependency loop that goes through. -/
inductive Turn (r : Requirement) : List Name × World → List Name × World → Prop
  | kept {new w dependency existing} :
      canonicalize r.name = some dependency → before.lookup dependency = some existing →
      satisfies packaging existing r = true → Turn r (new, w) (new, w)
  | pulled {new w dependency result w' installed} :
      canonicalize r.name = some dependency → before.lookup dependency = none →
      call dependency (exactPin r) w = some (.installed result, w') →
      w'.db.lookup dependency = some installed → satisfies packaging installed r = true →
      Turn r (new, w) (new ++ [dependency], w')

/-- A turn of the dependency loop that ends it with an error. -/
inductive Stop (r : Requirement) : List Name × World → List Name × World → Prop
  | refused {new w} : Stop r (new, w) (new, w)
  | failed {new w dependency result w'} :
      canonicalize r.name = some dependency → before.lookup dependency = none →
      call dependency (exactPin r) w = some (.failed result, w') → Stop r (new, w) (new, w')
  | unsatisfied {new w dependency result w'} :
      canonicalize r.name = some dependency → before.lookup dependency = none →
      call dependency (exactPin r) w = some (.installed result, w') →
      Stop r (new, w) (new ++ [dependency], w')

variable {packaging call before}

/-- One turn: it stops the loop, or the loop goes on from its result. -/
theorem installDependencies_cons {r : Requirement} {rs : List Requirement} {new : List Name}
    {w : World} {out : Option Error × List Name × World}
    (h : installDependencies packaging call before (r :: rs) new w = some out) :
    (∃ e, out.1 = some e ∧ Stop call before r (new, w) out.2)
    ∨ ∃ s, Turn packaging call before r (new, w) s
        ∧ installDependencies packaging call before rs s.1 s.2 = some out := by
  rw [installDependencies] at h
  split at h
  · obtain rfl := Option.some.inj h
    exact Or.inl ⟨_, rfl, .refused⟩
  · rename_i dependency hname
    split at h
    · rename_i existing hbefore
      split at h
      · rename_i hsat
        exact Or.inr ⟨(new, w), .kept hname hbefore hsat, h⟩
      · obtain rfl := Option.some.inj h
        exact Or.inl ⟨_, rfl, .refused⟩
    · rename_i hbefore
      split at h
      · cases h
      · rename_i result w' hcall
        obtain rfl := Option.some.inj h
        exact Or.inl ⟨_, rfl, .failed hname hbefore hcall⟩
      · rename_i result w' hcall
        split at h
        · obtain rfl := Option.some.inj h
          exact Or.inl ⟨_, rfl, .unsatisfied hname hbefore hcall⟩
        · rename_i installed hinstalled
          split at h
          · rename_i hsat
            exact Or.inr ⟨_, .pulled hname hbefore hcall hinstalled hsat, h⟩
          · obtain rfl := Option.some.inj h
            exact Or.inl ⟨_, rfl, .unsatisfied hname hbefore hcall⟩

/-- The invariant rule of the loop. `Inv pre s` speaks of the state `s`
after the requirements `pre`. -/
theorem installDependencies_rule (Inv : List Requirement → List Name × World → Prop)
    {all : List Requirement}
    (hturn : ∀ pre r post s s', all = pre ++ r :: post → Inv pre s →
      Turn packaging call before r s s' → Inv (pre ++ [r]) s') :
    ∀ {rs pre : List Requirement} {new new' : List Name} {w w' : World} {err : Option Error},
      all = pre ++ rs → Inv pre (new, w) →
      installDependencies packaging call before rs new w = some (err, new', w') →
        (err = none ∧ Inv all (new', w'))
        ∨ ∃ e pre' r post s, err = some e ∧ all = pre' ++ r :: post ∧ Inv pre' s
            ∧ Stop call before r s (new', w')
  | [], pre, _, _, _, _, _, hall, hinv, h => by
      obtain ⟨rfl, rfl, rfl⟩ : _ ∧ _ ∧ _ := by simpa [installDependencies] using h
      rw [List.append_nil] at hall
      exact Or.inl ⟨rfl, hall ▸ hinv⟩
  | r :: rs, pre, new, _, w, _, _, hall, hinv, h => by
      rcases installDependencies_cons h with ⟨e, he, hstop⟩ | ⟨⟨new₁, w₁⟩, hgo, hrest⟩
      · exact Or.inr ⟨e, pre, r, rs, (new, w), he, hall, hinv, hstop⟩
      · exact installDependencies_rule Inv hturn (by simpa using hall)
          (hturn pre r rs _ _ hall hinv hgo) hrest

/-- An invariant of the recursive calls holds however the loop ends. -/
theorem installDependencies_keeps (Inv : List Name × World → Prop) {rs : List Requirement}
    (hcall : ∀ r ∈ rs, ∀ new w dependency out w', canonicalize r.name = some dependency →
      before.lookup dependency = none → call dependency (exactPin r) w = some (out, w') →
      Inv (new, w) → Inv (new, w') ∧ (out.ok = true → Inv (new ++ [dependency], w')))
    {new new' : List Name} {w w' : World} {err : Option Error}
    (hinv : Inv (new, w))
    (h : installDependencies packaging call before rs new w = some (err, new', w')) :
    Inv (new', w') := by
  have hturn : ∀ pre r post s s', rs = pre ++ r :: post → Inv s →
      Turn packaging call before r s s' → Inv s' := by
    intro pre r post _ _ hall hinv hturn
    cases hturn with
    | kept => exact hinv
    | pulled hname hbefore hinstall =>
        exact (hcall r (by simp [hall]) _ _ _ _ _ hname hbefore hinstall hinv).2 rfl
  rcases installDependencies_rule (fun _ => Inv) hturn (List.nil_append rs).symm hinv h with
    ⟨-, hend⟩ | ⟨e, pre, r, post, s, -, hall, hend, hstop⟩
  · exact hend
  · have hr : r ∈ rs := by simp [hall]
    cases hstop with
    | refused => exact hend
    | failed hname hbefore hinstall =>
        exact (hcall r hr _ _ _ _ _ hname hbefore hinstall hend).1
    | unsatisfied hname hbefore hinstall =>
        exact (hcall r hr _ _ _ _ _ hname hbefore hinstall hend).2 rfl

end Loop

/-! ## A call -/

/-- A call that gets beyond the name and the recursion stack resolves the
manifest, runs the loop, and then either fails with the loop's error or
goes on to the wheel. -/
theorem install_cases {env : Env} {channel : String} {fuel : Nat} {stack : List Name}
    {name : String} {version : Option String} {w w' : World} {result : Result}
    (h : install env channel (fuel + 1) stack name version w = some (result, w')) :
    (∃ r, result = .failed r ∧ w' = w)
    ∨ ∃ package, canonicalize name = some package ∧ package ∉ stack
        ∧ ((∃ r, result = .failed r ∧ w' = { w with txns := w.txns + 1 })
          ∨ ∃ manifest err new w₁, resolve env w.txns package version channel = .ok manifest
            ∧ installDependencies env.packaging
                (install env channel fuel (stack ++ [package])) w.db
                (manifestRequirements env.packaging manifest) []
                { w with txns := w.txns + 1 } = some (err, new, w₁)
            ∧ ((∃ e r, err = some e ∧ result = .failed r ∧ w' = uninstallAll new.reverse w₁)
              ∨ err = none
                ∧ installWheel env channel stack w.txns package manifest new w₁
                  = (result, w'))) := by
  rw [install] at h
  split at h
  · obtain ⟨rfl, rfl⟩ := Prod.mk.injEq .. |>.mp (Option.some.inj h)
    exact Or.inl ⟨_, rfl, rfl⟩
  · rename_i package hname
    split at h
    · obtain ⟨rfl, rfl⟩ := Prod.mk.injEq .. |>.mp (Option.some.inj h)
      exact Or.inl ⟨_, rfl, rfl⟩
    · rename_i hstack
      refine Or.inr ⟨package, hname, hstack, ?_⟩
      dsimp only at h
      split at h
      · obtain ⟨rfl, rfl⟩ := Prod.mk.injEq .. |>.mp (Option.some.inj h)
        exact Or.inl ⟨_, rfl, rfl⟩
      · rename_i manifest hresolve
        refine Or.inr ⟨manifest, ?_⟩
        split at h
        · cases h
        · rename_i e new w₁ hloop
          obtain ⟨rfl, rfl⟩ := Prod.mk.injEq .. |>.mp (Option.some.inj h)
          exact ⟨_, new, w₁, hresolve, hloop, Or.inl ⟨e, _, rfl, rfl, rfl⟩⟩
        · rename_i new w₁ hloop
          exact ⟨_, new, w₁, hresolve, hloop, Or.inr ⟨rfl, Option.some.inj h⟩⟩

/-! ## The frame of the recursion -/

/-- Package `n` is installed in `w'` as it is in `w`. -/
def Untouched (n : Name) (w w' : World) : Prop :=
  w'.db.lookup n = w.db.lookup n ∧ w'.needs n = w.needs n

theorem Untouched.trans {n : Name} {w₁ w₂ w₃ : World} (h : Untouched n w₁ w₂)
    (h' : Untouched n w₂ w₃) : Untouched n w₁ w₃ :=
  ⟨h'.1.trans h.1, h'.2.trans h.2⟩

theorem uninstallAll_untouched {ns : List Name} {n : Name} {w : World}
    (hcanon : ∀ m ∈ ns, canonicalize m = some m) (hn : n ∉ ns) :
    Untouched n w (uninstallAll ns.reverse w) :=
  uninstallAll_frame ns.reverse w (by simpa using hcanon) (by simpa using hn)

theorem withWheel_untouched {env : Env} {channel : String} {stack : List Name} {t : Txn}
    {package n : Name} {manifest : Manifest} {staged : Staged} {w : World} (h : n ≠ package) :
    Untouched n w (withWheel env channel stack t package manifest staged w) :=
  ⟨AList.lookup_insert_ne h, Function.update_of_ne h ..⟩

/-- The names a loop pulls in are canonical and were not installed. -/
def Pulled (before : Db) (new : List Name) : Prop :=
  ∀ m ∈ new, canonicalize m = some m ∧ before.lookup m = none

theorem pulled_nil {before : Db} : Pulled before [] := by simp [Pulled]

theorem Pulled.snoc {before : Db} {new : List Name} {name : String} {dependency : Name}
    (h : Pulled before new) (hname : canonicalize name = some dependency)
    (hbefore : before.lookup dependency = none) : Pulled before (new ++ [dependency]) := by
  intro m hm
  rcases List.mem_append.mp hm with hm | hm
  · exact h m hm
  · rw [List.mem_singleton.mp hm]
    exact ⟨canonicalize_idem hname, hbefore⟩

/-- **Frame of the recursion.** A call leaves every installed package as
it is, except the requested one, and that one too if it fails. -/
theorem install_frame {env : Env} {channel : String} {n : Name} :
    ∀ {fuel : Nat} {stack : List Name} {name : String} {version : Option String}
      {w w' : World} {result : Result},
      install env channel fuel stack name version w = some (result, w') →
      (w.db.lookup n).isSome = true →
      (result.ok = true → canonicalize name ≠ some n) → Untouched n w w'
  | 0, _, _, _, _, _, _, h, _, _ => by rw [install] at h; cases h
  | fuel + 1, stack, name, version, w, w', result, h, hn, hother => by
      rcases install_cases h with ⟨r, -, rfl⟩ | ⟨package, hname, -, ⟨r, -, rfl⟩ | hrun⟩
      · exact ⟨rfl, rfl⟩
      · exact ⟨rfl, rfl⟩
      obtain ⟨manifest, err, new, w₁, -, hloop, hend⟩ := hrun
      -- the loop keeps what was installed and pulls in only what was not
      have hinv : Untouched n w w₁ ∧ Pulled w.db new := by
        refine installDependencies_keeps (fun s => Untouched n w s.2 ∧ Pulled w.db s.1)
          (fun r _ new w₂ dependency out w₃ hname' hbefore hinstall hinv => ?_)
          (by exact ⟨⟨rfl, rfl⟩, pulled_nil⟩) hloop
        have hkept : Untouched n w w₃ := by
          refine hinv.1.trans (install_frame hinstall (by rwa [hinv.1.1]) fun _ heq => ?_)
          rw [canonicalize_idem hname'] at heq
          rw [← Option.some.inj heq, hbefore] at hn
          cases hn
        exact ⟨⟨hkept, hinv.2⟩, fun _ => ⟨hkept, hinv.2.snoc hname' hbefore⟩⟩
      obtain ⟨hkept, hpulled⟩ := hinv
      have hundo : ∀ user, Untouched n w (uninstallAll new.reverse { w₁ with user := user }) := by
        intro user
        refine hkept.trans (uninstallAll_untouched (w := { w₁ with user := user })
          (fun m hm => (hpulled m hm).1) fun hm => ?_)
        rw [(hpulled n hm).2] at hn
        cases hn
      rcases hend with ⟨e, r, -, -, rfl⟩ | ⟨-, hwheel⟩
      · exact hundo w₁.user
      · rcases installWheel_cases env channel stack w.txns package manifest new w₁ with
          ⟨e, user, heq, -⟩ | ⟨staged, r, -, heq⟩
        · obtain ⟨-, rfl⟩ := Prod.mk.injEq .. |>.mp (hwheel.symm.trans heq)
          exact hundo user
        · obtain ⟨rfl, rfl⟩ := Prod.mk.injEq .. |>.mp (hwheel.symm.trans heq)
          refine hkept.trans (withWheel_untouched fun hnp => ?_)
          exact hother rfl (hnp ▸ hname)

/-! ## Termination -/

theorem installDependencies_returns {packaging : Packaging}
    {call : Name → Option String → World → Option (Result × World)} {before : Db} :
    ∀ {rs : List Requirement} {new : List Name} {w : World},
      (∀ r ∈ rs, ∀ dependency, canonicalize r.name = some dependency →
        ∀ w, (call dependency (exactPin r) w).isSome = true) →
      (installDependencies packaging call before rs new w).isSome = true
  | [], _, _, _ => rfl
  | r :: rs, new, w, hcall => by
      have hrest : ∀ new w, (installDependencies packaging call before rs new w).isSome = true :=
        fun new w => installDependencies_returns fun r hr => hcall r (List.mem_cons_of_mem _ hr)
      rw [installDependencies]
      split
      · rfl
      · rename_i dependency hname
        split
        · split
          · exact hrest new w
          · rfl
        · split
          · rename_i hnone
            have hsome := hcall r (List.mem_cons_self ..) dependency hname w
            rw [hnone] at hsome
            cases hsome
          · rfl
          · split
            · rfl
            · split
              · exact hrest _ _
              · rfl

theorem nodup_snoc {stack : List Name} {package : Name} (h : stack.Nodup)
    (hnew : package ∉ stack) : (stack ++ [package]).Nodup := by
  rw [← List.concat_eq_append]
  exact h.concat hnew

/-- `P` holds of every name that may be asked for, and only members of `names`
have a manifest. -/
theorem install_returns_within {env : Env} {channel : String} {names : List Name}
    {P : Name → Prop} (hP : ∀ t package version manifest, P package →
      resolve env t package version channel = .ok manifest → package ∈ names
        ∧ ∀ r ∈ manifestRequirements env.packaging manifest, ∀ dependency,
          canonicalize r.name = some dependency → P dependency) :
    ∀ {fuel : Nat} {stack : List Name} {name : String} {version : Option String} {w : World},
      stack.Nodup → stack ⊆ names → (∀ package, canonicalize name = some package →
        P package) → names.length < fuel + stack.length →
      (install env channel fuel stack name version w).isSome = true
  | 0, stack, _, _, _, hnodup, hsub, _, hfuel => by
      have hlength : stack.length ≤ names.length := (hnodup.subperm hsub).length_le
      exact absurd hfuel (by omega)
  | fuel + 1, stack, name, version, w, hnodup, hsub, hname, hfuel => by
      rw [install]
      split
      · rfl
      · rename_i package hpackage
        split
        · rfl
        · rename_i hstack
          dsimp only
          split
          · rfl
          · rename_i manifest hresolve
            obtain ⟨hmem, hrequired⟩ := hP _ package _ manifest (hname package hpackage) hresolve
            have hloop : (installDependencies env.packaging
                (install env channel fuel (stack ++ [package])) w.db
                (manifestRequirements env.packaging manifest) []
                { w with txns := w.txns + 1 }).isSome = true := by
              refine installDependencies_returns fun r hr dependency hdep w₁ => ?_
              refine install_returns_within hP (nodup_snoc hnodup hstack) ?_ ?_ ?_
              · intro a ha
                rcases List.mem_append.mp ha with ha | ha
                · exact hsub ha
                · exact List.mem_singleton.mp ha ▸ hmem
              · intro a ha
                rw [canonicalize_idem hdep] at ha
                exact Option.some.inj ha ▸ hrequired r hr _ hdep
              · rw [List.length_append, List.length_singleton]
                omega
            split
            · rename_i hnone
              rw [hnone] at hloop
              cases hloop
            · rfl
            · rfl

/-- The requirements of every manifest of `names` name members of `names`. -/
def ClosedUnder (env : Env) (channel : String) (names : List Name) : Prop :=
  ∀ t package version manifest, package ∈ names →
    resolve env t package version channel = .ok manifest →
    ∀ r ∈ manifestRequirements env.packaging manifest, ∀ dependency,
      canonicalize r.name = some dependency → dependency ∈ names

/-- **Termination.** Over finitely many names the recursion returns: each
level adds a new one of them to the stack. -/
theorem install_returns {env : Env} {channel : String} {names : List Name}
    (hclosed : ClosedUnder env channel names)
    {fuel : Nat} {stack : List Name} {name : String} {version : Option String} {w : World}
    (hnodup : stack.Nodup) (hsub : stack ⊆ names)
    (hname : ∀ package, canonicalize name = some package → package ∈ names)
    (hfuel : names.length < fuel + stack.length) :
    (install env channel fuel stack name version w).isSome = true :=
  @install_returns_within env channel names (· ∈ names)
    (fun t package version manifest hmem hresolve =>
      ⟨hmem, hclosed t package version manifest hmem hresolve⟩)
    fuel stack name version w hnodup hsub hname hfuel

end Zmux
