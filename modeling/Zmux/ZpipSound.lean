import Zmux.ZpipRollback

/-!
# Dependency soundness

A world is sound when the database meets the requirements every
installed package was installed with (`Sound`). `install` keeps it sound
under two conditions:

- upgrading the requested package itself breaks no requirement on it
  (`Accepted`): `install` looks at the requirements of the new package
  only, never at those of the packages that depend on it;
- no dependency loop comes to a package that was pulled in since its
  snapshot (`Stale`): it would install that package again.

Under the second condition a recursive call is made only for a package
that is not installed at that moment, so it replaces nothing. A package
on the recursion stack is never pulled in (`Grown.stack`), so what a
call installs at its end was not there either.
-/

namespace Zmux

/-! ## Sound worlds -/

/-- Every installed package has its requirements met. -/
def Sound (packaging : Packaging) (w : World) : Prop :=
  ∀ n, (w.db.lookup n).isSome = true → ∀ r ∈ w.needs n, Met packaging w.db r

/-- A requirement stays met while the record that meets it does. -/
theorem Met.keep {packaging : Packaging} {db db' : Db} {r : Requirement}
    (h : Met packaging db r)
    (hkeep : ∀ dependency, (db.lookup dependency).isSome = true →
      db'.lookup dependency = db.lookup dependency) : Met packaging db' r := by
  obtain ⟨dependency, record, hname, hlookup, hsat⟩ := h
  refine ⟨dependency, record, hname, ?_, hsat⟩
  rw [hkeep dependency (by rw [hlookup]; rfl), hlookup]

theorem satisfies_version {packaging : Packaging} {r : Requirement} {a b : Record}
    (h : a.version = b.version) : satisfies packaging a r = satisfies packaging b r := by
  unfold satisfies
  rw [h]

/-- Committing a wheel keeps the world sound if its own requirements are
met and its new version is accepted wherever the old one was. -/
theorem withWheel_sound {env : Env} {channel : String} {stack : List Name} {t : Txn}
    {package : Name} {manifest : Manifest} {staged : Staged} {w : World}
    (hsound : Sound env.packaging w)
    (hmet : ∀ r ∈ manifestRequirements env.packaging manifest, Met env.packaging w.db r)
    (hupgrade : ∀ old, w.db.lookup package = some old → ∀ r,
      canonicalize r.name = some package →
      (∃ n, (w.db.lookup n).isSome = true ∧ r ∈ w.needs n)
        ∨ r ∈ manifestRequirements env.packaging manifest →
      satisfies env.packaging old r = true →
      satisfies env.packaging { old with version := manifest.version } r = true) :
    Sound env.packaging (withWheel env channel stack t package manifest staged w) := by
  have hrecord : (withWheel env channel stack t package manifest staged w).db.lookup package
      = some (newRecord t manifest channel stack (w.db.lookup package) staged) :=
    AList.lookup_insert w.db
  have hlift : ∀ r, Met env.packaging w.db r →
      (∃ n, (w.db.lookup n).isSome = true ∧ r ∈ w.needs n)
        ∨ r ∈ manifestRequirements env.packaging manifest →
      Met env.packaging (withWheel env channel stack t package manifest staged w).db r := by
    intro r ⟨dependency, record, hname, hlookup, hsat⟩ hneeded
    by_cases hdep : dependency = package
    · subst hdep
      refine ⟨dependency, _, hname, hrecord, ?_⟩
      have hnew := hupgrade record hlookup r hname hneeded hsat
      rwa [satisfies_version rfl] at hnew
    · exact ⟨dependency, record, hname, by rw [(withWheel_untouched hdep).1, hlookup], hsat⟩
  intro n hn r hr
  by_cases hnp : n = package
  · have hneeds : (withWheel env channel stack t package manifest staged w).needs n
        = manifestRequirements env.packaging manifest := by
      rw [hnp]
      exact Function.update_self ..
    rw [hneeds] at hr
    exact hlift r (hmet r hr) (Or.inr hr)
  · have hother : Untouched n w
        (withWheel env channel stack t package manifest staged w) := withWheel_untouched hnp
    obtain ⟨hdb, hneeds⟩ := hother
    rw [hdb] at hn
    rw [hneeds] at hr
    exact hlift r (hsound n hn r hr) (Or.inl ⟨n, hn, hr⟩)

/-! ## Stale snapshots -/

section Stale

variable (env : Env) (channel : String)

/-- A dependency loop comes to a package that was pulled in after its
snapshot. -/
def Stale (c : InstallCall) : Prop :=
  ∃ inner, Relation.TransGen (Nested env channel) c inner
    ∧ (inner.world.db.lookup inner.name).isSome = true

/-- Where the call replaces an installed version, the new one is accepted
wherever the old one is. -/
def Accepted (c : InstallCall) : Prop :=
  ∀ package manifest new w₁, c.Loops env channel package manifest none new w₁ →
    ∀ old, w₁.db.lookup package = some old → ∀ r, canonicalize r.name = some package →
    (∃ n, (w₁.db.lookup n).isSome = true ∧ r ∈ w₁.needs n)
      ∨ r ∈ manifestRequirements env.packaging manifest →
    satisfies env.packaging old r = true →
    satisfies env.packaging { old with version := manifest.version } r = true

variable {env channel} {c inner : InstallCall}

theorem Stale.head (hnested : Nested env channel c inner) (h : Stale env channel inner) :
    Stale env channel c := by
  obtain ⟨deeper, hpath, hthere⟩ := h
  exact ⟨deeper, .head hnested hpath, hthere⟩

end Stale

/-! ## A successful call -/

section Grown

variable {env : Env} {channel : String} {c : InstallCall} {package : Name} {manifest : Manifest}
  {new : List Name} {w₁ w' : World}

/-- What a successful call leaves: the packages at work are not pulled in. -/
structure Grown (packaging : Packaging) (c : InstallCall) (w' : World) : Prop where
  stack : ∀ s ∈ c.stack, c.world.db.lookup s = none → w'.db.lookup s = none
  sound : Sound packaging w'

/-- The state of the dependency loop of `c` for `package`, after `pre`. -/
structure Grows (packaging : Packaging) (c : InstallCall) (package : Name)
    (pre : List Requirement) (w₁ : World) : Prop where
  kept : ∀ n, (c.world.db.lookup n).isSome = true → Untouched n c.world w₁
  stack : ∀ s ∈ c.stack ++ [package], c.world.db.lookup s = none → w₁.db.lookup s = none
  sound : Sound packaging w₁
  met : ∀ r ∈ pre, Met packaging w₁.db r

/-- The loop of a call, when its recursive calls leave what `Grown` says. -/
theorem loop_grows (hloops : c.Loops env channel package manifest none new w₁)
    (hstale : ¬Stale env channel c)
    (hcall : ∀ inner r w', Nested env channel c inner →
      inner.result env channel = some (.installed r, w') →
      inner.world.db.lookup inner.name = none → Sound env.packaging inner.world →
      Grown env.packaging inner w')
    (hsound : Sound env.packaging c.world) :
    Grows env.packaging c package (manifestRequirements env.packaging manifest) w₁ := by
  obtain ⟨fuel, hfuel, -, -, -, hloop⟩ := id hloops
  have hstart : Grows env.packaging c package [] { c.world with txns := c.world.txns + 1 } :=
    ⟨fun _ _ => ⟨rfl, rfl⟩, fun _ _ hnone => hnone, hsound, by simp⟩
  refine @loop_rule env.packaging (install env channel fuel (c.stack ++ [package]))
    c.world.db (new, w₁) (fun pre s => Grows env.packaging c package pre s.2)
    _ ([], { c.world with txns := c.world.txns + 1 }) hstart
    (fun pre r post s s' hall hinvokes hgrows hturn => ?_) hloop
  have hmet (w₂ : World) (hkeep : ∀ dependency, (s.2.db.lookup dependency).isSome = true →
        w₂.db.lookup dependency = s.2.db.lookup dependency) (hr : Met env.packaging w₂.db r) :
      ∀ q ∈ pre ++ [r], Met env.packaging w₂.db q := by
    intro q hq
    rcases List.mem_append.mp hq with hq | hq
    · exact (hgrows.met q hq).keep hkeep
    · rwa [List.mem_singleton.mp hq]
  cases hturn with
  | kept hname hbefore hsat =>
      refine ⟨hgrows.kept, hgrows.stack, hgrows.sound, hmet _ (fun _ _ => rfl) ?_⟩
      have hthere : Met env.packaging c.world.db r := ⟨_, _, hname, hbefore, hsat⟩
      exact hthere.keep fun dependency hsome => (hgrows.kept dependency hsome).1
  | @pulled new₂ w₂ dependency result w₃ installed hname hbefore hinstall hinstalled hsat =>
      have hnested : Nested env channel c
          ⟨fuel, c.stack ++ [package], dependency, exactPin r, w₂⟩ :=
        hloops.nested_iff.mpr ⟨hfuel, rfl, hinvokes dependency hname hbefore⟩
      have hfresh : w₂.db.lookup dependency = none :=
        Option.not_isSome_iff_eq_none.mp fun hthere => hstale ⟨_, .single hnested, hthere⟩
      have hframe (n : Name) (hn : (w₂.db.lookup n).isSome = true) : Untouched n w₂ w₃ := by
        refine install_frame hinstall hn fun _ heq => ?_
        rw [canonicalize_idem hname] at heq
        rw [← Option.some.inj heq, hfresh] at hn
        cases hn
      have hgrown := hcall _ result w₃ hnested hinstall hfresh hgrows.sound
      refine ⟨fun n hn => ?_, fun s hs hnone => ?_, hgrown.sound,
        hmet w₃ (fun e he => (hframe e he).1) ⟨dependency, _, hname, hinstalled, hsat⟩⟩
      · exact (hgrows.kept n hn).trans (hframe n (by rwa [(hgrows.kept n hn).1]))
      · exact hgrown.stack s hs (hgrows.stack s hs hnone)

/-- **Recursive calls.** Without stale snapshots a successful call for a
package that is not installed keeps the world sound. -/
theorem install_grown {r : Installed} (hresult : c.result env channel = some (.installed r, w'))
    (hstale : ¬Stale env channel c) (hname : canonicalize c.name = some package)
    (hnew : c.world.db.lookup package = none) (hsound : Sound env.packaging c.world) :
    Grown env.packaging c w' := by
  induction hfuel : c.fuel generalizing c package r w' with
  | zero =>
      rw [InstallCall.result, hfuel, install] at hresult
      cases hresult
  | succ fuel ih =>
      rcases result_cases hresult with ⟨r, hr, -⟩ | ⟨package', manifest, err, new, w₁, hloops, -⟩
      · cases hr
      obtain ⟨rfl, staged, -, rfl⟩ := hloops.installed_result hresult
      obtain ⟨_, _, hname', hstack, _⟩ := id hloops
      obtain rfl : package' = package := Option.some.inj (hname'.symm.trans hname)
      have hgrows := loop_grows hloops hstale
        (fun inner r w' hnested hinner hfresh hsound' => ih hinner
          (fun hdeeper => hstale (hdeeper.head hnested)) hnested.asks.1 hfresh hsound'
          (Nat.succ.inj ((hloops.nested_iff.mp hnested).1.symm.trans hfuel))) hsound
      refine ⟨fun s hs hnone => ?_, ?_⟩
      · have hne : s ≠ package' := fun heq => hstack (heq ▸ hs)
        rw [(withWheel_untouched hne).1]
        exact hgrows.stack s (by simp [hs]) hnone
      · refine withWheel_sound hgrows.sound hgrows.met fun old hold => ?_
        rw [hgrows.stack package' (by simp) hnew] at hold
        cases hold

end Grown

/-! ## install -/

/-- A loop that goes through found every requirement on an installed
package satisfied. -/
theorem installDependencies_accepts {packaging : Packaging}
    {call : Name → Option String → World → Option (Result × World)} {before : Db}
    {rs : List Requirement} {new new' : List Name} {w w' : World}
    (h : installDependencies packaging call before rs new w = some (none, new', w')) :
    ∀ r ∈ rs, ∀ dependency existing, canonicalize r.name = some dependency →
      before.lookup dependency = some existing → satisfies packaging existing r = true := by
  have hturn : ∀ pre r post s s', rs = pre ++ r :: post →
      (∀ q ∈ pre, ∀ dependency existing, canonicalize q.name = some dependency →
        before.lookup dependency = some existing → satisfies packaging existing q = true) →
      Turn packaging call before r s s' →
      ∀ q ∈ pre ++ [r], ∀ dependency existing, canonicalize q.name = some dependency →
        before.lookup dependency = some existing → satisfies packaging existing q = true := by
    intro pre r post s s' _ hinv hturn q hq dependency existing hname hlookup
    rcases List.mem_append.mp hq with hq | hq
    · exact hinv q hq dependency existing hname hlookup
    rw [List.mem_singleton.mp hq] at hname ⊢
    cases hturn with
    | kept hname' hbefore hsat =>
        obtain rfl := Option.some.inj (hname.symm.trans hname')
        rwa [Option.some.inj (hlookup.symm.trans hbefore)]
    | pulled hname' hbefore =>
        obtain rfl := Option.some.inj (hname.symm.trans hname')
        rw [hbefore] at hlookup
        cases hlookup
  rcases installDependencies_rule (fun pre _ => ∀ q ∈ pre, ∀ dependency existing,
      canonicalize q.name = some dependency → before.lookup dependency = some existing →
      satisfies packaging existing q = true) hturn (List.nil_append _).symm (by simp) h with
    ⟨-, hall⟩ | ⟨e, -, -, -, -, he, -⟩
  · exact hall
  · cases he

/-- An active requirement of the resolved manifest contradicts the
installed database. -/
def Conflicts (env : Env) (channel : String) (package : Name) (version : Option String)
    (w : World) : Prop :=
  ∃ manifest, resolve env w.txns package version channel = .ok manifest
    ∧ ∃ r ∈ manifestRequirements env.packaging manifest, ∃ dependency existing,
      canonicalize r.name = some dependency ∧ w.db.lookup dependency = some existing
        ∧ satisfies env.packaging existing r = false

/-- **Dependency soundness.** No call replaces or removes an installed
package other than the requested one; a conflict with the database makes
it fail; and a successful call keeps the world sound if the new version is
accepted and no snapshot has gone stale. -/
theorem install_sound {env : Env} {channel : String} {fuel : Nat} {name : String}
    {version : Option String} {w w' : World} {result : Result}
    (h : install env channel fuel [] name version w = some (result, w')) :
    (∀ n, (w.db.lookup n).isSome = true → (result.ok = true → canonicalize name ≠ some n) →
        Untouched n w w')
      ∧ ∀ package, canonicalize name = some package →
        (Conflicts env channel package version w → result.ok = false)
        ∧ (result.ok = true → Sound env.packaging w →
          ¬Stale env channel ⟨fuel, [], name, version, w⟩ →
          Accepted env channel ⟨fuel, [], name, version, w⟩ → Sound env.packaging w') := by
  refine ⟨fun n hn hother => install_frame h hn hother, fun package hname => ?_⟩
  have hresult : InstallCall.result env channel ⟨fuel, [], name, version, w⟩
      = some (result, w') := h
  rcases result_cases hresult with ⟨r, rfl, -⟩ | ⟨package', manifest, err, new, w₁, hloops, -⟩
  · exact ⟨fun _ => rfl, fun hok => by cases hok⟩
  cases result with
  | failed r => exact ⟨fun _ => rfl, fun hok => by cases hok⟩
  | installed r =>
      obtain ⟨rfl, staged, -, rfl⟩ := hloops.installed_result hresult
      obtain ⟨_, _, hname', _, hresolve, hloop⟩ := id hloops
      obtain rfl : package' = package := Option.some.inj (hname'.symm.trans hname)
      constructor
      · rintro ⟨manifest', hresolve', q, hq, dependency, existing, hdep, hlookup, hsat⟩
        obtain rfl := Except.ok.inj (hresolve.symm.trans hresolve')
        rw [installDependencies_accepts hloop q hq dependency existing hdep hlookup] at hsat
        cases hsat
      · intro _ hsound hstale haccepted
        have hgrows := loop_grows hloops hstale
          (fun inner r w' hnested hinner hfresh hsound' => install_grown hinner
            (fun hdeeper => hstale (hdeeper.head hnested)) hnested.asks.1 hfresh hsound') hsound
        exact withWheel_sound hgrows.sound hgrows.met (haccepted package' manifest new w₁ hloops)

/-! ## An upgrade under a dependent

`app` is installed and requires `demo` below 2, and `demo` is upgraded
from 1 to 2. With the specifier evaluated (`pinnedEnv`) the upgrade goes
through and `app` is left broken; where the specifier accepts every
version, the world stays sound. -/

def belowTwo : Requirement := ⟨"demo", [⟨"<", "2"⟩], none⟩

def appWorld : World :=
  { demoWorld with
    db := demoWorld.db.insert "app" ⟨"1", "r", "a", "stable", [demoFile "app.py"], "", 0, 0, true⟩
    needs := fun n => if n = "app" then [belowTwo] else [] }

def pinnedEnv : Env :=
  { demoEnv [] with packaging := ⟨fun _ => none, fun _ => true, fun _ version => version = "1"⟩ }

theorem appWorld_sound {packaging : Packaging}
    (h : packaging.contains belowTwo.specifier "1" = true) : Sound packaging appWorld := by
  intro n _ r hr
  simp only [appWorld] at hr
  split at hr
  · rw [List.mem_singleton.mp hr]
    refine ⟨"demo", _, by decide, rfl, ?_⟩
    unfold satisfies
    rw [Bool.or_eq_true]
    exact Or.inr h
  · exact (List.not_mem_nil hr).elim

theorem upgrade_breaks_dependent :
    Sound pinnedEnv.packaging appWorld
      ∧ ∃ result w', install pinnedEnv "stable" 2 [] "demo" none appWorld = some (result, w')
        ∧ result.ok = true ∧ ¬Sound pinnedEnv.packaging w' := by
  refine ⟨appWorld_sound rfl, ?_⟩
  have hrun : (install pinnedEnv "stable" 2 [] "demo" none appWorld).map
      (fun out => (out.1.ok, (out.2.db.lookup "app").isSome, out.2.needs "app",
        (out.2.db.lookup "demo").map fun record => satisfies pinnedEnv.packaging record belowTwo))
      = some (true, true, [belowTwo], some false) := by decide +kernel
  cases h : install pinnedEnv "stable" 2 [] "demo" none appWorld with
  | none => rw [h] at hrun; cases hrun
  | some out =>
      rw [h] at hrun
      simp only [Option.map_some, Option.some.injEq, Prod.mk.injEq] at hrun
      obtain ⟨hok, happ, hneeds, hdemo⟩ := hrun
      refine ⟨out.1, out.2, rfl, hok, fun hsound => ?_⟩
      have hmet := hsound "app" happ belowTwo (by rw [hneeds]; exact List.mem_singleton_self _)
      obtain ⟨dependency, record, hname, hlookup, hsat⟩ := hmet
      have hcanon : canonicalize belowTwo.name = some "demo" := by decide
      obtain rfl := Option.some.inj (hcanon.symm.trans hname)
      rw [hlookup, Option.map_some, hsat] at hdemo
      cases hdemo

/-! ## An upgrade that pulls in a package

`app` requires `a`, which is installed, and `a` is upgraded to a version
that needs `b`. -/

def anyA : Requirement := ⟨"a", [], none⟩

def dependentWorld : World :=
  { emptyWorld with
    db := ((∅ : Db).insert "a" ⟨"0", "r", "a", "stable", [], "", 0, 0, true⟩).insert "app"
      ⟨"1", "r", "a", "stable", [demoFile "app.py"], "", 0, 0, true⟩
    needs := fun n => if n = "app" then [anyA] else [] }

theorem dependentWorld_sound {packaging : Packaging} : Sound packaging dependentWorld := by
  intro n _ r hr
  simp only [dependentWorld] at hr
  split at hr
  · rw [List.mem_singleton.mp hr]
    exact ⟨"a", _, by decide, rfl, rfl⟩
  · exact (List.not_mem_nil hr).elim

/-- `a` asks for `b`, and `b` for nothing. -/
theorem upgrade_nested {inner : InstallCall}
    (h : Relation.TransGen (Nested (chainEnv ["b"]) "stable")
      ⟨3, [], "a", none, dependentWorld⟩ inner) :
    inner = ⟨2, ["a"], "b", none, { dependentWorld with txns := 1 }⟩ := by
  have ha : canonicalize "a" = some "a" := by decide
  have hb : canonicalize "b" = some "b" := by decide
  have ham : resolve (chainEnv ["b"]) 0 "a" none "stable"
      = .ok (leafManifest "https://a" ["b"]) := rfl
  have hbm : resolve (chainEnv ["b"]) 1 "b" none "stable" = .ok (leafManifest "https://b" []) := rfl
  have hfirst {inner : InstallCall}
      (h : Nested (chainEnv ["b"]) "stable" ⟨3, [], "a", none, dependentWorld⟩ inner) :
      inner = ⟨2, ["a"], "b", none, { dependentWorld with txns := 1 }⟩ := by
    cases h with
    | call hname _ hresolve hinv =>
        obtain rfl := Option.some.inj (ha.symm.trans hname)
        obtain rfl := Except.ok.inj (ham.symm.trans hresolve)
        cases hinv with
        | now hname' =>
            obtain rfl := Option.some.inj (hb.symm.trans hname')
            rfl
        | later _ hrest => cases hrest
  have hsecond {inner : InstallCall} (h : Nested (chainEnv ["b"]) "stable"
      ⟨2, ["a"], "b", none, { dependentWorld with txns := 1 }⟩ inner) : False := by
    cases h with
    | call hname _ hresolve hinv =>
        obtain rfl := Option.some.inj (hb.symm.trans hname)
        obtain rfl := Except.ok.inj (hbm.symm.trans hresolve)
        cases hinv
  induction h with
  | single hnested => exact hfirst hnested
  | tail _ hnested ih => exact (hsecond (ih ▸ hnested)).elim

theorem install_sound_demo :
    ∃ result w', install (chainEnv ["b"]) "stable" 3 [] "a" none dependentWorld
        = some (result, w')
      ∧ result.ok = true ∧ (w'.db.lookup "b").isSome = true
      ∧ Sound (chainEnv ["b"]).packaging w' := by
  have hrun : (install (chainEnv ["b"]) "stable" 3 [] "a" none dependentWorld).map
      (fun out => (out.1.ok, (out.2.db.lookup "b").isSome)) = some (true, true) := by
    decide +kernel
  cases h : install (chainEnv ["b"]) "stable" 3 [] "a" none dependentWorld with
  | none => rw [h] at hrun; cases hrun
  | some out =>
      rw [h] at hrun
      simp only [Option.map_some, Option.some.injEq, Prod.mk.injEq] at hrun
      have hcanon : canonicalize "a" = some "a" := by decide
      refine ⟨out.1, out.2, rfl, hrun.1, hrun.2, ?_⟩
      refine ((install_sound h).2 "a" hcanon).2 hrun.1 dependentWorld_sound ?_ ?_
      · rintro ⟨inner, hpath, hthere⟩
        obtain rfl := upgrade_nested hpath
        cases hthere
      · intro package manifest new w₁ _ old _ r _ _ _
        unfold satisfies
        rw [Bool.or_eq_true]
        exact Or.inr rfl

end Zmux
