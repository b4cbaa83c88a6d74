import Mathlib.Logic.Relation
import Zmux.ZpipSpec

/-!
# The recursive calls of install

`install` calls itself for every requirement that its snapshot of the
database does not have. `Invokes` says which calls a dependency loop makes
and in which world, and `Nested` which calls a call makes; what holds
anywhere in the recursion is said with it.

A loop ends by itself or with the first of its calls that fails
(`loop_ends`), its list holds the packages of the calls that succeeded
(`InstallCall.Loops.mem_new_iff`), and what is installed stays installed
(`install_keeps`).
-/

namespace Zmux

/-! ## The calls of a dependency loop -/

section Loop

variable (packaging : Packaging) (call : Name → Option String → World → Option (Result × World))
  (before : Db)

/-- The loop over the requirements, in the given state, makes the recursive
call. -/
inductive Invokes : List Requirement → List Name × World → Name → Option String → World → Prop
  | now {r rs new w dependency} :
      canonicalize r.name = some dependency → before.lookup dependency = none →
      Invokes (r :: rs) (new, w) dependency (exactPin r) w
  | later {r rs s s' dependency version w} :
      Turn packaging call before r s s' → Invokes rs s' dependency version w →
      Invokes (r :: rs) s dependency version w

variable {packaging call before}

theorem installDependencies_turn {r : Requirement} {rs : List Requirement}
    {s s' : List Name × World} (h : Turn packaging call before r s s') :
    installDependencies packaging call before (r :: rs) s.1 s.2
      = installDependencies packaging call before rs s'.1 s'.2 := by
  cases h with
  | kept hname hbefore hsat => simp only [installDependencies, hname, hbefore, hsat, if_true]
  | pulled hname hbefore hcall hlookup hsat =>
      simp only [installDependencies, hname, hbefore, hcall, hlookup, hsat, if_true]

/-- The loop makes no other calls. -/
theorem installDependencies_congr
    {call' : Name → Option String → World → Option (Result × World)} :
    ∀ {rs : List Requirement} {new : List Name} {w : World},
      (∀ dependency version w₁, Invokes packaging call before rs (new, w) dependency version w₁ →
        call' dependency version w₁ = call dependency version w₁) →
      installDependencies packaging call' before rs new w
        = installDependencies packaging call before rs new w
  | [], _, _, _ => rfl
  | r :: rs, new, w, h => by
      have hrest : ∀ s, Turn packaging call before r (new, w) s →
          installDependencies packaging call' before rs s.1 s.2
            = installDependencies packaging call before rs s.1 s.2 :=
        fun s hturn => installDependencies_congr fun dependency version w₁ hinv =>
          h dependency version w₁ (.later hturn hinv)
      cases hname : canonicalize r.name with
      | none => simp only [installDependencies, hname]
      | some dependency =>
          cases hbefore : before.lookup dependency with
          | some existing =>
              simp only [installDependencies, hname, hbefore]
              split
              · rename_i hsat
                exact hrest _ (.kept hname hbefore hsat)
              · rfl
          | none =>
              have hcall := h dependency (exactPin r) w (.now hname hbefore)
              simp only [installDependencies, hname, hbefore, hcall]
              split
              · rfl
              · rfl
              · rename_i result w' hinstalled
                split
                · rfl
                · rename_i installed hlookup
                  split
                  · rename_i hsat
                    exact hrest _ (.pulled hname hbefore hinstalled hlookup hsat)
                  · rfl

variable {rs : List Requirement} {s : List Name × World} {dependency : Name}
  {version : Option String} {w : World}

/-- If the loop returns, then so does each call that it makes. -/
theorem invokes_returns (h : Invokes packaging call before rs s dependency version w)
    (hloop : installDependencies packaging call before rs s.1 s.2 ≠ none) :
    ∃ result w', call dependency version w = some (result, w') := by
  induction h with
  | @now r rs new w dependency hname hbefore =>
      cases hcall : call dependency (exactPin r) w with
      | none =>
          refine absurd ?_ hloop
          simp only [installDependencies, hname, hbefore, hcall]
      | some out => exact ⟨out.1, out.2, rfl⟩
  | later hturn _ ih =>
      rw [installDependencies_turn hturn] at hloop
      exact ih hloop

/-- If a call fails, then the loop ends with it. -/
theorem invokes_failed (h : Invokes packaging call before rs s dependency version w)
    {result : Result} {w' : World} (hcall : call dependency version w = some (result, w'))
    (hfailed : result.ok = false) :
    ∃ e new, installDependencies packaging call before rs s.1 s.2 = some (some e, new, w') := by
  induction h with
  | @now r rs new w dependency hname hbefore =>
      cases result with
      | installed r => cases hfailed
      | failed r =>
          refine ⟨.dependencyFailed dependency r.error, new, ?_⟩
          simp only [installDependencies, hname, hbefore, hcall]
  | later hturn _ ih =>
      rw [installDependencies_turn hturn]
      exact ih hcall

variable {s' : List Name × World} {err : Option Error}

/-- A loop ends by itself, with what its successful calls keep, or with a
call that fails. -/
theorem loop_ends (P : List Name × World → Prop) {rs : List Requirement}
    {s : List Name × World}
    (hcall : ∀ new dependency version w r w',
      Invokes packaging call before rs s dependency version w →
      call dependency version w = some (.installed r, w') → P (new, w) →
      P (new ++ [dependency], w'))
    (hP : P s) (h : installDependencies packaging call before rs s.1 s.2 = some (err, s')) :
    P s' ∨ ∃ dependency version w r, Invokes packaging call before rs s dependency version w
      ∧ call dependency version w = some (.failed r, s'.2) ∧ P (s'.1, w) ∧ err ≠ none := by
  induction rs generalizing s with
  | nil =>
      obtain ⟨-, rfl⟩ := Prod.mk.injEq .. |>.mp (Option.some.inj h)
      exact Or.inl hP
  | cons r rs ih =>
      obtain ⟨new, w⟩ := s
      rcases installDependencies_cons h with ⟨e, he, hstop⟩ | ⟨s₁, hturn, hrest⟩
      · obtain rfl : err = some e := he
        cases hstop with
        | refused => exact Or.inl hP
        | failed hname hbefore hfailed =>
            exact Or.inr ⟨_, _, _, _, .now hname hbefore, hfailed, hP, nofun⟩
        | unsatisfied hname hbefore hinstall =>
            exact Or.inl (hcall _ _ _ _ _ _ (.now hname hbefore) hinstall hP)
      · have hP₁ : P s₁ := by
          cases hturn with
          | kept => exact hP
          | pulled hname hbefore hinstall =>
              exact hcall _ _ _ _ _ _ (.now hname hbefore) hinstall hP
        rcases ih (fun _ _ _ _ _ _ hinv => hcall _ _ _ _ _ _ (.later hturn hinv)) hP₁ hrest with
          hend | ⟨dependency, version, w₁, r', hinv, hfailed, hend⟩
        · exact Or.inl hend
        · exact Or.inr ⟨dependency, version, w₁, r', .later hturn hinv, hfailed, hend⟩

/-- The invariant rule of a loop that goes through, with the call that each
turn makes. -/
theorem loop_rule (Inv : List Requirement → List Name × World → Prop) {all : List Requirement}
    {s₀ : List Name × World} (hstart : Inv [] s₀)
    (hturn : ∀ pre r post s s', all = pre ++ r :: post →
      (∀ dependency, canonicalize r.name = some dependency → before.lookup dependency = none →
        Invokes packaging call before all s₀ dependency (exactPin r) s.2) →
      Inv pre s → Turn packaging call before r s s' → Inv (pre ++ [r]) s')
    (h : installDependencies packaging call before all s₀.1 s₀.2 = some (none, s')) :
    Inv all s' := by
  have hrule := installDependencies_rule
    (fun pre s => (∀ post dependency version w,
        Invokes packaging call before post s dependency version w →
        Invokes packaging call before (pre ++ post) s₀ dependency version w) ∧ Inv pre s)
    (fun pre r post s s' hall ⟨hcalls, hinv⟩ hgo => by
      refine ⟨fun post dependency version w hinvokes => ?_,
        hturn pre r post s s' hall (fun dependency hname hbefore => ?_) hinv hgo⟩
      · have hrest := hcalls (r :: post) dependency version w (.later hgo hinvokes)
        rwa [List.append_assoc]
      · rw [hall]
        exact hcalls (r :: post) dependency (exactPin r) s.2 (.now hname hbefore))
    (List.nil_append all).symm ⟨fun _ _ _ _ hinvokes => hinvokes, hstart⟩ h
  rcases hrule with ⟨-, -, hinv⟩ | ⟨e, -, -, -, -, he, -⟩
  · exact hinv
  · cases he

/-- The list of a loop are the packages of the calls that succeeded. -/
theorem mem_pulled {w₀ : World} {m : Name}
    (h : installDependencies packaging call before rs [] w₀ = some (err, s')) (hm : m ∈ s'.1) :
    ∃ version w r w', Invokes packaging call before rs ([], w₀) m version w
      ∧ call m version w = some (.installed r, w') := by
  rcases loop_ends (fun s => ∀ m ∈ s.1, ∃ version w r w',
      Invokes packaging call before rs ([], w₀) m version w
        ∧ call m version w = some (.installed r, w'))
      (fun _ dependency version w r w' hinv hinstall hnew m hm => by
        rcases List.mem_append.mp hm with hm | hm
        · exact hnew m hm
        · rw [List.mem_singleton.mp hm]
          exact ⟨version, w, r, w', hinv, hinstall⟩)
      (fun m hm => (List.not_mem_nil hm).elim) h with hall | ⟨_, _, _, _, -, -, hall, -⟩
  · exact hall m hm
  · exact hall m hm

/-- What is new after a loop is new after one of its calls. -/
theorem loop_new {n : Name}
    (h : installDependencies packaging call before rs s.1 s.2 = some (err, s'))
    (hn : (s'.2.db.lookup n).isSome = true) :
    (s.2.db.lookup n).isSome = true ∨ ∃ dependency version w out w',
      Invokes packaging call before rs s dependency version w
        ∧ call dependency version w = some (out, w') ∧ (w'.db.lookup n).isSome = true
        ∧ w.db.lookup n = none := by
  rcases loop_ends (fun s₁ => (s₁.2.db.lookup n).isSome = true →
      (s.2.db.lookup n).isSome = true ∨ ∃ dependency version w out w',
      Invokes packaging call before rs s dependency version w
        ∧ call dependency version w = some (out, w') ∧ (w'.db.lookup n).isSome = true
        ∧ w.db.lookup n = none)
      (fun _ dependency version w r w' hinv hinstall hold hn => by
        cases hw : w.db.lookup n with
        | some record => exact hold (by rw [hw]; rfl)
        | none => exact Or.inr ⟨dependency, version, w, _, w', hinv, hinstall, hn, hw⟩)
      Or.inl h with hend | ⟨dependency, version, w, r, hinv, hfailed, hend, -⟩
  · exact hend hn
  · cases hw : w.db.lookup n with
    | some record => exact hend (by rw [hw]; rfl)
    | none => exact Or.inr ⟨dependency, version, w, _, _, hinv, hfailed, hn, hw⟩

/-- What is installed when the loop begins is so when the call is made. -/
theorem Invokes.keeps (hkeeps : ∀ {dependency version w out w' n},
      call dependency version w = some (out, w') → (w.db.lookup n).isSome = true →
      (w'.db.lookup n).isSome = true)
    (h : Invokes packaging call before rs s dependency version w) {n : Name}
    (hn : (s.2.db.lookup n).isSome = true) : (w.db.lookup n).isSome = true := by
  induction h with
  | now => exact hn
  | later hturn _ ih =>
      refine ih ?_
      cases hturn with
      | kept => exact hn
      | pulled _ _ hinstall => exact hkeeps hinstall hn

theorem Invokes.asks (h : Invokes packaging call before rs s dependency version w) :
    canonicalize dependency = some dependency ∧ before.lookup dependency = none := by
  induction h with
  | now hname hbefore => exact ⟨canonicalize_idem hname, hbefore⟩
  | later _ _ ih => exact ih

/-- A call of the loop that succeeds puts its package on the list, and what
is installed after it is installed after the loop. -/
theorem invokes_pulled (hkeeps : ∀ {dependency version w out w' n},
      call dependency version w = some (out, w') → (w.db.lookup n).isSome = true →
      (w'.db.lookup n).isSome = true)
    (h : Invokes packaging call before rs s dependency version w) {r : Installed} {w' : World}
    (hcall : call dependency version w = some (.installed r, w'))
    (hloop : installDependencies packaging call before rs s.1 s.2 = some (err, s')) :
    dependency ∈ s'.1 ∧ ∀ n, (w'.db.lookup n).isSome = true →
      (s'.2.db.lookup n).isSome = true := by
  have hrest : ∀ {rs : List Requirement} {s : List Name × World},
      installDependencies packaging call before rs s.1 s.2 = some (err, s') →
      (∀ m ∈ s.1, m ∈ s'.1) ∧ ∀ n, (s.2.db.lookup n).isSome = true →
        (s'.2.db.lookup n).isSome = true := by
    intro rs s hloop
    refine ⟨fun m hm => ?_, fun n hn => ?_⟩
    · exact installDependencies_keeps (fun s => m ∈ s.1)
        (fun _ _ _ _ _ _ _ _ _ _ hm => ⟨hm, fun _ => List.mem_append_left _ hm⟩) hm hloop
    · exact installDependencies_keeps (fun s => (s.2.db.lookup n).isSome = true)
        (fun _ _ _ _ _ _ _ _ _ hcall hn => ⟨hkeeps hcall hn, fun _ => hkeeps hcall hn⟩) hn hloop
  induction h with
  | @now r' rs new w dependency hname hbefore =>
      have hlast : dependency ∈ new ++ [dependency] := by simp
      simp only [installDependencies, hname, hbefore, hcall] at hloop
      split at hloop
      · obtain ⟨-, rfl⟩ := Prod.mk.injEq .. |>.mp (Option.some.inj hloop)
        exact ⟨hlast, fun _ hn => hn⟩
      · split at hloop
        · obtain ⟨hlist, hthere⟩ := @hrest rs (new ++ [dependency], w') hloop
          exact ⟨hlist dependency hlast, hthere⟩
        · obtain ⟨-, rfl⟩ := Prod.mk.injEq .. |>.mp (Option.some.inj hloop)
          exact ⟨hlast, fun _ hn => hn⟩
  | later hturn _ ih =>
      rw [installDependencies_turn hturn] at hloop
      exact ih hcall hloop

end Loop

/-! ## What is installed stays -/

section Keeps

variable {env : Env} {channel : String} {fuel : ℕ} {stack : List Name} {name : String}
  {version : Option String} {w w' : World} {n : Name}

theorem installed_isSome {r : Installed} {package : Name}
    (h : install env channel fuel stack name version w = some (.installed r, w'))
    (hname : canonicalize name = some package) : (w'.db.lookup package).isSome = true := by
  cases fuel with
  | zero => rw [install] at h; cases h
  | succ fuel =>
      rcases install_cases h with ⟨r, hr, -⟩ | ⟨package', hname', -, ⟨r, hr, -⟩ | hrun⟩
      · cases hr
      · cases hr
      obtain rfl : package = package' := Option.some.inj (hname.symm.trans hname')
      obtain ⟨manifest, err, new, w₁, -, -, ⟨e, r', -, hr, -⟩ | ⟨-, hwheel⟩⟩ := hrun
      · cases hr
      rcases installWheel_cases env channel stack w.txns package manifest new w₁ with
        ⟨e, user, heq, -⟩ | ⟨staged, r', -, heq⟩
      · cases hwheel.symm.trans heq
      · obtain ⟨-, rfl⟩ := Prod.mk.injEq .. |>.mp (hwheel.symm.trans heq)
        rw [withWheel, AList.lookup_insert]
        rfl

theorem install_keeps {result : Result}
    (h : install env channel fuel stack name version w = some (result, w'))
    (hn : (w.db.lookup n).isSome = true) : (w'.db.lookup n).isSome = true := by
  cases result with
  | failed r => rwa [(install_frame h hn fun hok => by cases hok).1]
  | installed r =>
      by_cases hname : canonicalize name = some n
      · exact installed_isSome h hname
      · rwa [(install_frame h hn fun _ => hname).1]

end Keeps

/-! ## The recursion -/

/-- The arguments of a call of `install`. -/
structure InstallCall where
  fuel : Nat
  stack : List Name
  name : String
  version : Option String
  world : World

section Calls

variable (env : Env) (channel : String)

/-- What the call returns. -/
def InstallCall.result (c : InstallCall) : Option (Result × World) :=
  install env channel c.fuel c.stack c.name c.version c.world

/-- The first call makes the second one. -/
inductive Nested : InstallCall → InstallCall → Prop
  | call {fuel stack name version w package manifest dependency pin w₁} :
      canonicalize name = some package → package ∉ stack →
      resolve env w.txns package version channel = .ok manifest →
      Invokes env.packaging (install env channel fuel (stack ++ [package])) w.db
        (manifestRequirements env.packaging manifest) ([], { w with txns := w.txns + 1 })
        dependency pin w₁ →
      Nested ⟨fuel + 1, stack, name, version, w⟩ ⟨fuel, stack ++ [package], dependency, pin, w₁⟩

variable {env channel}

theorem nested_nodup {outer inner : InstallCall}
    (h : Relation.ReflTransGen (Nested env channel) outer inner) (hnodup : outer.stack.Nodup) :
    inner.stack.Nodup := by
  induction h with
  | refl => exact hnodup
  | tail _ hcall ih =>
      cases hcall with
      | call hname hstack hresolve hinv => exact nodup_snoc ih hstack

/-- A call that goes as far as the dependency loop. -/
theorem install_loop {fuel : Nat} {stack : List Name} {name : String} {version : Option String}
    {w : World} {package : Name} {manifest : Manifest} (hname : canonicalize name = some package)
    (hstack : package ∉ stack)
    (hresolve : resolve env w.txns package version channel = .ok manifest) :
    install env channel (fuel + 1) stack name version w
      = match installDependencies env.packaging
            (install env channel fuel (stack ++ [package])) w.db
            (manifestRequirements env.packaging manifest) []
            { w with txns := w.txns + 1 } with
        | none => none
        | some (some e, new, w₁) =>
            some (.failed ⟨package, e, true⟩, uninstallAll new.reverse w₁)
        | some (none, new, w₁) =>
            some (installWheel env channel stack w.txns package manifest new w₁) := by
  generalize hloop : installDependencies env.packaging _ _ _ _ _ = out
  rcases out with _ | ⟨_ | e, new, w₁⟩ <;>
    simp only [install, hname, hstack, hresolve, hloop, if_false]

/-- A call for a package on the recursion stack fails and changes nothing. -/
theorem install_cycle {env : Env} {channel : String} {fuel : Nat} {stack : List Name}
    {name : String} {package : Name} {version : Option String} {w w' : World} {result : Result}
    (hname : canonicalize name = some package) (hstack : package ∈ stack)
    (h : install env channel fuel stack name version w = some (result, w')) :
    result.ok = false ∧ w' = w := by
  cases fuel with
  | zero => rw [install] at h; cases h
  | succ fuel =>
      rcases install_cases h with ⟨r, rfl, rfl⟩ | ⟨package', hname', hstack', -⟩
      · exact ⟨rfl, rfl⟩
      · rw [hname] at hname'
        exact absurd (Option.some.inj hname' ▸ hstack) hstack'

/-- If a call returns, then so does each call that it makes. -/
theorem nested_returns {outer inner : InstallCall} (h : Nested env channel outer inner)
    (hreturns : outer.result env channel ≠ none) :
    ∃ result w', inner.result env channel = some (result, w') := by
  cases h with
  | call hname hstack hresolve hinv =>
      refine invokes_returns hinv fun hnone => hreturns ?_
      rw [InstallCall.result, install_loop hname hstack hresolve, hnone]

/-- If a call fails, then so does the call that made it. -/
theorem nested_failed {outer inner : InstallCall} (h : Nested env channel outer inner)
    {result : Result} {w' : World} (hresult : inner.result env channel = some (result, w'))
    (hfailed : result.ok = false) :
    ∃ r w, outer.result env channel = some (.failed r, w) := by
  cases h with
  | @call fuel stack name version w package manifest dependency pin w₁ hname hstack hresolve hinv =>
      obtain ⟨e, new, hloop⟩ := invokes_failed hinv hresult hfailed
      refine ⟨⟨package, e, true⟩, uninstallAll new.reverse w', ?_⟩
      rw [InstallCall.result, install_loop hname hstack hresolve, hloop]

/-- The call is for a name on the stack. -/
def InstallCall.Recurs (c : InstallCall) : Prop :=
  ∃ package, canonicalize c.name = some package ∧ package ∈ c.stack

/-- A top-level call that meets a cycle fails. -/
theorem recurs_failed {outer inner : InstallCall}
    (h : Relation.ReflTransGen (Nested env channel) outer inner) (hrecurs : inner.Recurs)
    {result : Result} {w' : World} (hresult : outer.result env channel = some (result, w')) :
    result.ok = false := by
  induction h using Relation.ReflTransGen.head_induction_on generalizing result w' with
  | refl =>
      obtain ⟨package, hname, hstack⟩ := hrecurs
      exact (install_cycle hname hstack hresult).1
  | head hcall _ ih =>
      obtain ⟨result', w₁, hresult'⟩ := nested_returns hcall (by rw [hresult]; simp)
      obtain ⟨r, w₂, hfailed⟩ := nested_failed hcall hresult' (ih hresult')
      obtain ⟨rfl, -⟩ := Prod.mk.injEq .. |>.mp (Option.some.inj (hresult.symm.trans hfailed))
      rfl

/-- What a call returns does not depend on the fuel. -/
theorem install_mono : ∀ {fuel fuel' : Nat} {stack : List Name} {name : String}
    {version : Option String} {w : World} {out : Result × World}, fuel ≤ fuel' →
    install env channel fuel stack name version w = some out →
    install env channel fuel' stack name version w = some out
  | 0, _, _, _, _, _, _, _, h => by rw [install] at h; cases h
  | fuel + 1, 0, _, _, _, _, _, hle, _ => absurd hle (by omega)
  | fuel + 1, fuel' + 1, stack, name, version, w, out, hle, h => by
      cases hname : canonicalize name with
      | none => simpa only [install, hname] using h
      | some package =>
          by_cases hstack : package ∈ stack
          · simpa only [install, hname, if_pos hstack] using h
          cases hresolve : resolve env w.txns package version channel with
          | error e => simpa only [install, hname, if_neg hstack, hresolve] using h
          | ok manifest =>
              rw [install_loop hname hstack hresolve] at h ⊢
              rw [installDependencies_congr fun dependency pin w₁ hinv => ?_]
              · exact h
              · have hloop := invokes_returns hinv fun hnone => by rw [hnone] at h; cases h
                obtain ⟨result, w', hcall⟩ := hloop
                rw [hcall]
                exact install_mono (Nat.le_of_succ_le_succ hle) hcall

/-! ## The loop of a call -/

/-- The dependency loop of the call ends like this. -/
def InstallCall.Loops (env : Env) (channel : String) (c : InstallCall) (package : Name)
    (manifest : Manifest) (err : Option Error) (new : List Name) (w₁ : World) : Prop :=
  ∃ fuel, c.fuel = fuel + 1 ∧ canonicalize c.name = some package ∧ package ∉ c.stack
    ∧ resolve env c.world.txns package c.version channel = .ok manifest
    ∧ installDependencies env.packaging (install env channel fuel (c.stack ++ [package]))
        c.world.db (manifestRequirements env.packaging manifest) []
        { c.world with txns := c.world.txns + 1 } = some (err, new, w₁)

def InstallCall.Succeeds (env : Env) (channel : String) (c : InstallCall) : Prop :=
  ∃ r w, c.result env channel = some (.installed r, w)

def InstallCall.Fails (env : Env) (channel : String) (c : InstallCall) : Prop :=
  ∃ r w, c.result env channel = some (.failed r, w)

section

variable {env : Env} {channel : String} {c inner : InstallCall} {package : Name}
  {manifest : Manifest} {err : Option Error} {new : List Name} {w₁ w' : World} {n : Name}

theorem InstallCall.Loops.result_some {e : Error}
    (h : c.Loops env channel package manifest (some e) new w₁) :
    c.result env channel = some (.failed ⟨package, e, true⟩, uninstallAll new.reverse w₁) := by
  obtain ⟨fuel, stack, name, version, w⟩ := c
  obtain ⟨fuel, rfl, hname, hstack, hresolve, hloop⟩ := h
  rw [InstallCall.result, install_loop hname hstack hresolve, hloop]

theorem InstallCall.Loops.result_none
    (h : c.Loops env channel package manifest none new w₁) :
    c.result env channel
      = some (installWheel env channel c.stack c.world.txns package manifest new w₁) := by
  obtain ⟨fuel, stack, name, version, w⟩ := c
  obtain ⟨fuel, rfl, hname, hstack, hresolve, hloop⟩ := h
  rw [InstallCall.result, install_loop hname hstack hresolve, hloop]

/-- How a call ends, if it returns. -/
theorem result_cases {result : Result} (h : c.result env channel = some (result, w')) :
    (∃ r, result = .failed r ∧ w'.db = c.world.db ∧ w'.user = c.world.user
      ∧ ∀ package manifest err new w₁, ¬c.Loops env channel package manifest err new w₁)
    ∨ ∃ package manifest err new w₁, c.Loops env channel package manifest err new w₁
      ∧ ((∃ e r, err = some e ∧ result = .failed r ∧ w' = uninstallAll new.reverse w₁)
        ∨ err = none ∧ installWheel env channel c.stack c.world.txns package manifest new w₁
            = (result, w')) := by
  obtain ⟨fuel, stack, name, version, w⟩ := c
  by_cases hloops : ∃ package manifest err new w₁,
      InstallCall.Loops env channel ⟨fuel, stack, name, version, w⟩ package manifest err new w₁
  · obtain ⟨package, manifest, err, new, w₁, hrun⟩ := hloops
    refine Or.inr ⟨package, manifest, err, new, w₁, hrun, ?_⟩
    cases err with
    | some e =>
        rw [hrun.result_some] at h
        obtain ⟨rfl, rfl⟩ := Prod.mk.injEq .. |>.mp (Option.some.inj h)
        exact Or.inl ⟨e, _, rfl, rfl, rfl⟩
    | none =>
        rw [hrun.result_none] at h
        exact Or.inr ⟨rfl, Option.some.inj h⟩
  · have hnone : ∀ package manifest err new w₁, ¬InstallCall.Loops env channel
        ⟨fuel, stack, name, version, w⟩ package manifest err new w₁ :=
      fun package manifest err new w₁ hrun => hloops ⟨package, manifest, err, new, w₁, hrun⟩
    cases fuel with
    | zero => rw [InstallCall.result, install] at h; cases h
    | succ fuel =>
        rcases install_cases h with ⟨r, rfl, rfl⟩ | ⟨package, hname, hstack, ⟨r, rfl, rfl⟩ | hrun⟩
        · exact Or.inl ⟨r, rfl, rfl, rfl, hnone⟩
        · exact Or.inl ⟨r, rfl, rfl, rfl, hnone⟩
        · obtain ⟨manifest, err, new, w₁, hresolve, hloop, -⟩ := hrun
          exact (hnone package manifest err new w₁
            ⟨fuel, rfl, hname, hstack, hresolve, hloop⟩).elim

/-- The calls that a call makes are those of its loop. -/
theorem InstallCall.Loops.nested_iff (h : c.Loops env channel package manifest err new w₁) :
    Nested env channel c inner ↔ c.fuel = inner.fuel + 1 ∧ inner.stack = c.stack ++ [package]
      ∧ Invokes env.packaging (install env channel inner.fuel (c.stack ++ [package])) c.world.db
          (manifestRequirements env.packaging manifest)
          ([], { c.world with txns := c.world.txns + 1 }) inner.name inner.version
          inner.world := by
  obtain ⟨fuel, hfuel, hname, hstack, hresolve, -⟩ := h
  constructor
  · intro hnested
    cases hnested with
    | call hname' _ hresolve' hinv =>
        obtain rfl := Option.some.inj (hname.symm.trans hname')
        obtain rfl := Except.ok.inj (hresolve.symm.trans hresolve')
        exact ⟨rfl, rfl, hinv⟩
  · obtain ⟨fuel', stack, name, version, w⟩ := c
    obtain ⟨fuel₁, stack₁, name₁, version₁, w₁⟩ := inner
    rintro ⟨hfuel', hstack', hinv⟩
    dsimp only at hfuel' hstack' hinv hname hstack hresolve
    subst hfuel' hstack'
    exact .call hname hstack hresolve hinv

/-- A call that makes another one gets to its loop. -/
theorem Nested.loops (h : Nested env channel c inner) {out : Result × World}
    (hresult : c.result env channel = some out) :
    ∃ package manifest err new w₁, c.Loops env channel package manifest err new w₁ := by
  have hpair : c.result env channel = some (out.1, out.2) := hresult
  rcases result_cases hpair with
    ⟨r, -, -, -, hnone⟩ | ⟨package, manifest, err, new, w₁, hloops, -⟩
  · cases h with
    | @call fuel stack name version w package manifest dependency pin w₂ hname hstack hresolve
        hinv =>
      cases hloop : installDependencies env.packaging
          (install env channel fuel (stack ++ [package])) w.db
          (manifestRequirements env.packaging manifest) [] { w with txns := w.txns + 1 } with
      | none =>
          rw [InstallCall.result, install_loop hname hstack hresolve, hloop] at hresult
          cases hresult
      | some s =>
          exact (hnone package manifest s.1 s.2.1 s.2.2
            ⟨fuel, rfl, hname, hstack, hresolve, hloop⟩).elim
  · exact ⟨package, manifest, err, new, w₁, hloops⟩

/-- A call that fails ends the loop that made it. -/
theorem InstallCall.Loops.failed (h : c.Loops env channel package manifest err new w₁)
    (hnested : Nested env channel c inner) {r : Failed}
    (hfailed : inner.result env channel = some (.failed r, w')) : err ≠ none ∧ w₁ = w' := by
  obtain ⟨hfuel, hstack, hinv⟩ := h.nested_iff.mp hnested
  obtain ⟨fuel, hfuel', -, -, -, hloop⟩ := h
  obtain rfl : inner.fuel = fuel := Nat.succ.inj (hfuel.symm.trans hfuel')
  rw [InstallCall.result, hstack] at hfailed
  obtain ⟨e, new', heq⟩ := invokes_failed hinv hfailed rfl
  rw [hloop] at heq
  obtain ⟨rfl, -, rfl⟩ := by simpa using heq
  exact ⟨nofun, rfl⟩

/-- A call that succeeds puts its package on the list. -/
theorem InstallCall.Loops.installed (h : c.Loops env channel package manifest err new w₁)
    (hnested : Nested env channel c inner) {r : Installed}
    (hinstalled : inner.result env channel = some (.installed r, w')) :
    inner.name ∈ new ∧ ∀ n, (w'.db.lookup n).isSome = true → (w₁.db.lookup n).isSome = true := by
  obtain ⟨hfuel, hstack, hinv⟩ := h.nested_iff.mp hnested
  obtain ⟨fuel, hfuel', -, -, -, hloop⟩ := h
  obtain rfl : inner.fuel = fuel := Nat.succ.inj (hfuel.symm.trans hfuel')
  rw [InstallCall.result, hstack] at hinstalled
  exact invokes_pulled install_keeps hinv hinstalled hloop

/-- The list holds the packages of the calls that succeeded, and no others. -/
theorem InstallCall.Loops.mem_new_iff (h : c.Loops env channel package manifest err new w₁) :
    n ∈ new ↔ ∃ inner, Nested env channel c inner ∧ inner.name = n
      ∧ inner.Succeeds env channel := by
  constructor
  · intro hn
    obtain ⟨fuel, hfuel, -, -, -, hloop⟩ := id h
    obtain ⟨version, w, r, w', hinv, hcall⟩ := mem_pulled hloop hn
    exact ⟨⟨fuel, c.stack ++ [package], n, version, w⟩,
      h.nested_iff.mpr ⟨hfuel, rfl, hinv⟩, rfl, r, w', hcall⟩
  · rintro ⟨inner, hnested, rfl, r, w', hinstalled⟩
    exact (h.installed hnested hinstalled).1

/-- The loop of a call ends by itself, with what its successful calls keep,
or with a call that fails. -/
theorem InstallCall.Loops.ends (h : c.Loops env channel package manifest err new w₁)
    (P : World → Prop)
    (hcall : ∀ inner r w', Nested env channel c inner →
      inner.result env channel = some (.installed r, w') → P inner.world → P w')
    (hP : P { c.world with txns := c.world.txns + 1 }) :
    P w₁ ∨ ∃ inner r, Nested env channel c inner
      ∧ inner.result env channel = some (.failed r, w₁) ∧ P inner.world ∧ err ≠ none := by
  obtain ⟨fuel, hfuel, -, -, -, hloop⟩ := id h
  have hnested {dependency version w} (hinv : Invokes env.packaging
        (install env channel fuel (c.stack ++ [package])) c.world.db
        (manifestRequirements env.packaging manifest)
        ([], { c.world with txns := c.world.txns + 1 }) dependency version w) :
      Nested env channel c ⟨fuel, c.stack ++ [package], dependency, version, w⟩ :=
    h.nested_iff.mpr ⟨hfuel, rfl, hinv⟩
  rcases loop_ends (fun s => P s.2)
      (fun _ dependency version w r w' hinv hinstall =>
        hcall ⟨fuel, c.stack ++ [package], dependency, version, w⟩ r w' (hnested hinv) hinstall)
      hP hloop with hend | ⟨dependency, version, w, r, hinv, hfailed, hend, herr⟩
  · exact Or.inl hend
  · exact Or.inr ⟨_, r, hnested hinv, hfailed, hend, herr⟩

/-- What is new after the loop is new after one of its calls. -/
theorem InstallCall.Loops.added (h : c.Loops env channel package manifest err new w₁)
    (hn : (w₁.db.lookup n).isSome = true) :
    (c.world.db.lookup n).isSome = true ∨ ∃ inner out w', Nested env channel c inner
      ∧ inner.result env channel = some (out, w') ∧ (w'.db.lookup n).isSome = true
      ∧ inner.world.db.lookup n = none := by
  obtain ⟨fuel, hfuel, -, -, -, hloop⟩ := id h
  have hnew := @loop_new env.packaging (install env channel fuel (c.stack ++ [package]))
    c.world.db (manifestRequirements env.packaging manifest)
    ([], { c.world with txns := c.world.txns + 1 }) (new, w₁) err n hloop hn
  rcases hnew with hold | ⟨dependency, version, w, out, w', hinv, hcall, hnew⟩
  · exact Or.inl hold
  · exact Or.inr ⟨⟨fuel, c.stack ++ [package], dependency, version, w⟩, out, w',
      h.nested_iff.mpr ⟨hfuel, rfl, hinv⟩, hcall, hnew⟩

theorem Nested.keeps (h : Nested env channel c inner)
    (hn : (c.world.db.lookup n).isSome = true) : (inner.world.db.lookup n).isSome = true := by
  cases h with
  | call hname hstack hresolve hinv => exact hinv.keeps install_keeps hn

/-- A failure passes up to the call that has made the calls. -/
theorem fails_of_nested (h : Relation.ReflTransGen (Nested env channel) c inner)
    (hfails : inner.Fails env channel) : c.Fails env channel := by
  induction h using Relation.ReflTransGen.head_induction_on with
  | refl => exact hfails
  | head hcall _ ih =>
      obtain ⟨r, w, hresult⟩ := ih
      exact nested_failed hcall hresult rfl

/-- A package is asked for only if it was not installed when the call began,
and by its canonical name. -/
theorem Nested.asks (h : Nested env channel c inner) :
    canonicalize inner.name = some inner.name ∧ c.world.db.lookup inner.name = none := by
  cases h with
  | call hname hstack hresolve hinv => exact hinv.asks

end

end Calls

end Zmux
