import Mathlib.Logic.Relation
import Zmux.ZpipRollback

/-!
# Dependency cycles

`install` calls itself for every requirement that is not installed, and
nothing but the stack of the names that it is at work on stops it. Over
finitely many packages the recursion returns, whatever the fuel beyond
their number, and no name is twice on its stack (`nested_nodup`): a call
for a name on it fails at once. A failure passes up to the top-level call
(`nested_failed`), so no requirement cycle that the recursion meets can be
installed.

That it does meet the cycles needs an argument, for the calls change the
database that the later ones look at. But the packages that lead to a
cycle are each in need of another such package, and none of them is ever
installed (`doomed_fails`).
-/

namespace Zmux

/-! ## The packages that lead to a cycle -/

/-- None of the names is installed. -/
def Absent (names : Set Name) (w : World) : Prop := ∀ n ∈ names, w.db.lookup n = none

theorem absent_uninstall {names : Set Name} {w : World} (h : Absent names w) (package : Name) :
    Absent names (uninstall package w) := by
  intro n hn
  by_cases hpackage : n = package
  · rw [hpackage]
    exact uninstall_lookup_self package w
  · rw [uninstall_lookup_ne hpackage]
    exact h n hn

theorem absent_uninstallAll {names : Set Name} : ∀ (ns : List Name) {w : World},
    Absent names w → Absent names (uninstallAll ns w)
  | [], _, h => h
  | n :: ns, w, h => by
      rw [uninstallAll]
      split
      · exact absent_uninstallAll ns h
      · exact absent_uninstallAll ns (absent_uninstall h _)

/-- If the calls of a loop install none of the names, then the loop comes
through with no requirement for any of them. -/
theorem loop_avoids {packaging : Packaging} {names : Set Name}
    {call : Name → Option String → World → Option (Result × World)} {before : Db}
    {rs : List Requirement} (hbefore : ∀ n ∈ names, before.lookup n = none)
    (hcall : ∀ r ∈ rs, ∀ dependency w result w', canonicalize r.name = some dependency →
      call dependency (exactPin r) w = some (result, w') → Absent names w →
      Absent names w' ∧ (result.ok = true → dependency ∉ names))
    {new new' : List Name} {w w' : World} {err : Option Error} (hw : Absent names w)
    (h : installDependencies packaging call before rs new w = some (err, new', w')) :
    Absent names w' ∧ (err = none → ∀ r ∈ rs, ∀ dependency,
      canonicalize r.name = some dependency → dependency ∉ names) := by
  have hmem : ∀ {pre : List Requirement} {r : Requirement} {post : List Requirement},
      rs = pre ++ r :: post → r ∈ rs := fun hall => by simp [hall]
  have hturn : ∀ pre r post s s', rs = pre ++ r :: post →
      (Absent names s.2 ∧ ∀ r ∈ pre, ∀ dependency, canonicalize r.name = some dependency →
        dependency ∉ names) → Turn packaging call before r s s' →
      Absent names s'.2 ∧ ∀ r' ∈ pre ++ [r], ∀ dependency,
        canonicalize r'.name = some dependency → dependency ∉ names := by
    rintro pre r post s s' hall ⟨habsent, havoids⟩ hturn
    have hlast : Absent names s'.2 ∧ ∀ dependency, canonicalize r.name = some dependency →
        dependency ∉ names := by
      cases hturn with
      | @kept new w needed existing hname hlookup hsat =>
          refine ⟨habsent, fun dependency hdep hmem => ?_⟩
          obtain rfl := Option.some.inj (hname.symm.trans hdep)
          rw [hbefore needed hmem] at hlookup
          cases hlookup
      | @pulled new w needed result w₁ installed hname hlookup hinstall hrecord hsat =>
          obtain ⟨hw₁, hneeded⟩ := hcall r (hmem hall) _ _ _ _ hname hinstall habsent
          refine ⟨hw₁, fun dependency hdep => ?_⟩
          obtain rfl := Option.some.inj (hname.symm.trans hdep)
          exact hneeded rfl
    refine ⟨hlast.1, fun r' hr' => ?_⟩
    rcases List.mem_append.mp hr' with hr' | hr'
    · exact havoids r' hr'
    · exact List.mem_singleton.mp hr' ▸ hlast.2
  rcases installDependencies_rule (fun pre s => Absent names s.2 ∧ ∀ r ∈ pre, ∀ dependency,
      canonicalize r.name = some dependency → dependency ∉ names) hturn (List.nil_append rs).symm
      ⟨hw, fun r hr => absurd hr List.not_mem_nil⟩ h with
    ⟨-, hend, havoids⟩ | ⟨e, pre, r, post, s, rfl, hall, ⟨hend, -⟩, hstop⟩
  · exact ⟨hend, fun _ => havoids⟩
  · refine ⟨?_, fun herr => by cases herr⟩
    cases hstop with
    | refused => exact hend
    | failed hname hlookup hinstall =>
        exact (hcall r (hmem hall) _ _ _ _ hname hinstall hend).1
    | unsatisfied hname hlookup hinstall =>
        exact (hcall r (hmem hall) _ _ _ _ hname hinstall hend).1

section Cycles

variable (env : Env) (channel : String) (package : Name) (version : Option String)

/-- The releases that a call for `version` of `package` may ask the indexes for. -/
inductive Asked : Name → Option String → Prop
  | requested : Asked package version
  | required {a v t manifest r b} :
      Asked a v → resolve env t a v channel = .ok manifest →
      r ∈ manifestRequirements env.packaging manifest → canonicalize r.name = some b →
      Asked b (exactPin r)

/-- Each of these releases of `a` requires `b`. One that did not could be
installed first, for another requirement, and the cycle would be gone. -/
def Requires (a b : Name) : Prop :=
  ∀ v t manifest, Asked env channel package version a v →
    resolve env t a v channel = .ok manifest →
    ∃ r ∈ manifestRequirements env.packaging manifest, canonicalize r.name = some b

/-- `a` requires `b`, which is not installed. -/
def Needs (db : Db) (a b : Name) : Prop :=
  Requires env channel package version a b ∧ db.lookup b = none

variable {env channel package version}

/-- Packages that each require another one of them are not installed, and
what requires one of them is not either. -/
theorem doomed_fails {doomed : Set Name}
    (hdoomed : ∀ a ∈ doomed, ∃ b ∈ doomed, Requires env channel package version a b) :
    ∀ {fuel : Nat} {stack : List Name} {name : String} {v : Option String} {w w' : World}
      {result : Result}, Absent doomed w →
      (∀ a, canonicalize name = some a → Asked env channel package version a v) →
      install env channel fuel stack name v w = some (result, w') →
      Absent doomed w' ∧ (result.ok = true → ∀ a, canonicalize name = some a →
        ∀ b ∈ doomed, ¬ Requires env channel package version a b)
  | 0, _, _, _, _, _, _, _, _, h => by rw [install] at h; cases h
  | fuel + 1, stack, name, v, w, w', result, hw, hasked, h => by
      have hfails : ∀ {r : Failed}, result = .failed r → (result.ok = true → ∀ a,
          canonicalize name = some a → ∀ b ∈ doomed, ¬ Requires env channel package version a b) :=
        fun hr hok => by rw [hr] at hok; cases hok
      rcases install_cases h with ⟨r, hr, rfl⟩ | ⟨a, hname, -, ⟨r, hr, rfl⟩ | hrun⟩
      · exact ⟨hw, hfails hr⟩
      · exact ⟨hw, hfails hr⟩
      obtain ⟨manifest, err, new, w₁, hresolve, hloop, hend⟩ := hrun
      have hcall : ∀ r ∈ manifestRequirements env.packaging manifest, ∀ b w₂ out w₃,
          canonicalize r.name = some b →
          install env channel fuel (stack ++ [a]) b (exactPin r) w₂ = some (out, w₃) →
          Absent doomed w₂ → Absent doomed w₃ ∧ (out.ok = true → b ∉ doomed) := by
        intro r hr b w₂ out w₃ hb hinstall hw₂
        have hidem : canonicalize b = some b := canonicalize_idem hb
        have hasked' : ∀ b', canonicalize b = some b' →
            Asked env channel package version b' (exactPin r) := by
          intro b' hb'
          obtain rfl := Option.some.inj (hidem.symm.trans hb')
          exact .required (hasked a hname) hresolve hr hb
        obtain ⟨hw₃, hfree⟩ := doomed_fails hdoomed hw₂ hasked' hinstall
        refine ⟨hw₃, fun hok hmem => ?_⟩
        obtain ⟨c, hc, hrequires⟩ := hdoomed b hmem
        exact hfree hok b hidem c hc hrequires
      have hstart : Absent doomed { w with txns := w.txns + 1 } := hw
      obtain ⟨hw₁, havoids⟩ := loop_avoids hw hcall hstart hloop
      rcases hend with ⟨e, r, -, hr, rfl⟩ | ⟨rfl, hwheel⟩
      · exact ⟨absent_uninstallAll _ hw₁, hfails hr⟩
      -- the loop is through, so this package requires none of them
      have hfree : ∀ b ∈ doomed, ¬ Requires env channel package version a b := by
        intro b hmem hrequires
        obtain ⟨r, hr, hb⟩ := hrequires v _ manifest (hasked a hname) hresolve
        exact havoids rfl r hr b hb hmem
      rcases installWheel_cases env channel stack w.txns a manifest new w₁ with
        ⟨e, user, heq, -⟩ | ⟨staged, r, -, heq⟩
      · obtain ⟨hr, rfl⟩ := Prod.mk.injEq .. |>.mp (hwheel.symm.trans heq)
        exact ⟨absent_uninstallAll _ hw₁, hfails hr⟩
      · obtain ⟨-, rfl⟩ := Prod.mk.injEq .. |>.mp (hwheel.symm.trans heq)
        refine ⟨fun n hn => ?_, fun _ a' ha' => ?_⟩
        · have hne : n ≠ a := by
            rintro rfl
            obtain ⟨b, hb, hrequires⟩ := hdoomed n hn
            exact hfree b hb hrequires
          exact (AList.lookup_insert_ne hne).trans (hw₁ n hn)
        · obtain rfl := Option.some.inj (hname.symm.trans ha')
          exact hfree

/-- A package that leads to a cycle cannot be installed. -/
theorem cycle_failed {name : String} (hname : canonicalize name = some package) {c : Name}
    {fuel : Nat} {w w' : World} {result : Result}
    (hpath : Relation.ReflTransGen (Needs env channel package version w.db) package c)
    (hcycle : Relation.TransGen (Needs env channel package version w.db) c c)
    (h : install env channel fuel [] name version w = some (result, w')) :
    result.ok = false := by
  -- every package that leads to the cycle has a successor that does
  have hnext : ∀ a, Relation.ReflTransGen (Needs env channel package version w.db) a c →
      ∃ b, Needs env channel package version w.db a b
        ∧ Relation.ReflTransGen (Needs env channel package version w.db) b c := by
    intro a ha
    obtain ⟨b, hab, hbc⟩ := Relation.TransGen.head'_iff.mp (hcycle.trans_right ha)
    exact ⟨b, hab, hbc⟩
  have hdoomed : ∀ a, Relation.ReflTransGen (Needs env channel package version w.db) a c →
      ∃ b ∈ {b | w.db.lookup b = none
        ∧ Relation.ReflTransGen (Needs env channel package version w.db) b c},
        Requires env channel package version a b := by
    intro a ha
    obtain ⟨b, ⟨hrequires, hlookup⟩, hbc⟩ := hnext a ha
    exact ⟨b, ⟨hlookup, hbc⟩, hrequires⟩
  have hasked : ∀ a, canonicalize name = some a → Asked env channel package version a version := by
    intro a ha
    obtain rfl := Option.some.inj (hname.symm.trans ha)
    exact .requested
  refine Bool.eq_false_iff.mpr fun hok => ?_
  obtain ⟨b, hb, hrequires⟩ := hdoomed package hpath
  exact (doomed_fails (fun a ha => hdoomed a ha.2) (fun n hn => hn.1) hasked h).2 hok package hname
    b hb hrequires

/-! ## Termination -/

/-- The indexes have finitely many packages. -/
def Universe (env : Env) (channel : String) (names : List Name) : Prop :=
  ∀ t package version manifest, resolve env t package version channel = .ok manifest →
    package ∈ names

/-- Fuel for one call more than there are packages is enough, and what
`install` returns is the same for all of it. -/
theorem install_terminates {names : List Name} (h : Universe env channel names) (name : String)
    (v : Option String) (w : World) :
    ∃ result w', ∀ fuel, names.length < fuel →
      install env channel fuel [] name v w = some (result, w') := by
  have hsome : (install env channel (names.length + 1) [] name v w).isSome = true :=
    install_returns_within (P := fun _ => True)
      (fun t a u manifest _ hresolve => ⟨h t a u manifest hresolve, fun _ _ _ _ => trivial⟩)
      List.nodup_nil (List.nil_subset names) (fun _ _ => trivial) (Nat.lt_succ_self _)
  obtain ⟨⟨result, w'⟩, hrun⟩ := Option.isSome_iff_exists.mp hsome
  exact ⟨result, w', fun fuel hfuel => install_mono hfuel hrun⟩

end Cycles

/-- **Dependency recursion.** Over finitely many packages a top-level call
returns. No name is twice on the stack of any call it makes. If it meets a
name on the stack, it fails, and so it does if the package leads to a
requirement cycle through packages that are not installed. -/
theorem install_cycles {env : Env} {channel : String} {names : List Name}
    (huniverse : Universe env channel names) (name : String) (version : Option String) (w : World) :
    ∃ result w',
      (∀ fuel, names.length < fuel →
        install env channel fuel [] name version w = some (result, w')
        ∧ ∀ inner, Relation.ReflTransGen (Nested env channel) ⟨fuel, [], name, version, w⟩ inner →
          inner.stack.Nodup ∧ (inner.Recurs → result.ok = false))
      ∧ ∀ package c, canonicalize name = some package →
        Relation.ReflTransGen (Needs env channel package version w.db) package c →
        Relation.TransGen (Needs env channel package version w.db) c c → result.ok = false := by
  obtain ⟨result, w', hrun⟩ := install_terminates huniverse name version w
  refine ⟨result, w', fun fuel hfuel => ⟨hrun fuel hfuel, fun inner hinner => ⟨?_, ?_⟩⟩, ?_⟩
  · exact nested_nodup hinner List.nodup_nil
  · intro hrecurs
    exact recurs_failed hinner hrecurs (hrun fuel hfuel)
  · intro package c hname hpath hcycle
    exact cycle_failed hname hpath hcycle (hrun _ (Nat.lt_succ_self _))

/-! `p` requires `a`, and `a` requires `p`. -/

theorem chain_universe (aNeeds : List String) :
    Universe (chainEnv aNeeds) "stable" ["p", "a", "b"] := by
  intro t package version manifest h
  by_contra hnone
  simp only [List.mem_cons, List.not_mem_nil, or_false, not_or] at hnone
  simp only [resolve, manifestFromCurated, manifestFromPypi, chainEnv, if_neg hnone.1,
    if_neg hnone.2.1, if_neg hnone.2.2] at h
  cases h

theorem p_needs_a : Needs (chainEnv ["p"]) "stable" "p" none ∅ "p" "a" := by
  refine ⟨fun v t manifest _ hresolve => ?_, rfl⟩
  have hp : resolve (chainEnv ["p"]) t "p" v "stable" = .ok (leafManifest "https://p" ["a"]) := rfl
  obtain rfl := Except.ok.inj (hp.symm.trans hresolve)
  exact ⟨⟨"a", [], none⟩, List.mem_cons_self, by decide⟩

theorem a_needs_p : Needs (chainEnv ["p"]) "stable" "p" none ∅ "a" "p" := by
  refine ⟨fun v t manifest _ hresolve => ?_, rfl⟩
  have ha : resolve (chainEnv ["p"]) t "a" v "stable" = .ok (leafManifest "https://a" ["p"]) := rfl
  obtain rfl := Except.ok.inj (ha.symm.trans hresolve)
  exact ⟨⟨"p", [], none⟩, List.mem_cons_self, by decide⟩

theorem install_cycles_chain : ∃ result w',
    install (chainEnv ["p"]) "stable" 4 [] "p" none emptyWorld = some (result, w')
      ∧ result.ok = false := by
  obtain ⟨result, w', hrun, hcycle⟩ := install_cycles (chain_universe ["p"]) "p" none emptyWorld
  have hname : canonicalize "p" = some "p" := by decide
  exact ⟨result, w', (hrun 4 (by decide)).1,
    hcycle "p" "p" hname .refl (.tail (.single p_needs_a) a_needs_p)⟩

end Zmux
