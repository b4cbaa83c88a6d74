import Zmux.Runs
import Zmux.ZpipRollback

/-!
# Which packages were asked for

`zpip list` marks a package `explicit` when the user asked for it by name,
and a later `autoremove` may take only the others. `install` recomputes
the flag at every commit, from the record it finds and from whether it
runs on behalf of another package.

The history of a store is the list of its top-level calls (`Invoked`),
latest first, each with its outcome and the database it left. A package
is wanted (`Wanted`) when one of them installed it by name and its record
has been there ever since. The flag says just that
(`explicit_iff_wanted`).

Three facts about one call carry it: a call for another package leaves
the record of an installed one alone (`install_frame`), whatever a nested
call writes is not explicit (`install_implicit`), and what a top-level
call installs by name is (`install_explicit`).
-/

namespace Zmux

/-! ## uninstall from the prompt -/

/-- The loop of `uninstall` over the recorded files, up to the first
`unlink` that raises. -/
def unlinkFiles (fault : Op → Bool) : List RelName → Tree → Tree × Option Error
  | [], user => (user, none)
  | f :: fs, user =>
    if f.path = [] || (user f.path).isNone then unlinkFiles fault fs user
    else if fault (.unlink f) then (user, some (.raised (.unlink f)))
    else unlinkFiles fault fs (Function.update user f.path none)

/-- `uninstall` of the name the user typed: its `ok` field, `false` also
when it raises. -/
def uninstallNamed (fault : Op → Bool) (name : String) (w : World) : Bool × World :=
  match canonicalize name with
  | none => (false, w)
  | some package =>
    match w.db.lookup package with
    | none => (false, w)
    | some record =>
      match unlinkFiles fault record.files w.user with
      | (user, some _) => (false, { w with user := user })
      | (user, none) =>
        if fault .saveDb then (false, { w with user := user })
        else (true, { w with db := w.db.erase package, user := user })

theorem unlinkFiles_faultless : ∀ (fs : List RelName) (user : Tree),
    unlinkFiles (fun _ => false) fs user = (removeFiles user fs, none)
  | [], _ => rfl
  | f :: fs, user => by
      have hgone : user f.path = none → Function.update user f.path none = user := fun h => by
        rw [← h, Function.update_eq_self]
      rw [unlinkFiles, removeFiles]
      by_cases hroot : f.path = []
      · rw [if_pos hroot, if_pos (by simp [hroot]), unlinkFiles_faultless fs user]
      · rw [if_neg hroot]
        cases hfile : user f.path with
        | none => rw [if_pos (by simp), hgone hfile, unlinkFiles_faultless fs user]
        | some _ =>
            rw [if_neg (by simp [hroot]), if_neg (by simp), unlinkFiles_faultless fs _]

/-- The `uninstall` of the rollback is this one with nothing raising. -/
theorem uninstallNamed_faultless {name : String} {package : Name}
    (hname : canonicalize name = some package) (w : World) :
    (uninstallNamed (fun _ => false) name w).2 = uninstall package w := by
  rw [uninstallNamed, hname, uninstall]
  dsimp only
  cases hlookup : w.db.lookup package with
  | none => rfl
  | some record => simp [unlinkFiles_faultless]

/-- An `uninstall` erases one record at most. -/
theorem uninstallNamed_lookup (fault : Op → Bool) (name : String) (w : World) (n : Name) :
    (uninstallNamed fault name w).2.db.lookup n = none
      ∨ (uninstallNamed fault name w).2.db.lookup n = w.db.lookup n := by
  rw [uninstallNamed]
  split
  · exact Or.inr rfl
  · rename_i package hname
    split
    · exact Or.inr rfl
    · split
      · exact Or.inr rfl
      · split
        · exact Or.inr rfl
        · by_cases hn : n = package
          · rw [hn]
            exact Or.inl (AList.lookup_erase package w.db)
          · exact Or.inr (AList.lookup_erase_ne hn)

/-! ## What one call does to the flag -/

/-- If `n` has a record, its flag is `flag`. -/
def Flagged (flag : Bool) (n : Name) (db : Db) : Prop :=
  ∀ record, db.lookup n = some record → record.explicit = flag

theorem uninstall_flagged {flag : Bool} {n package : Name} {w : World}
    (h : Flagged flag n w.db) : Flagged flag n (uninstall package w).db := by
  intro record hrecord
  by_cases hn : n = package
  · rw [hn, uninstall_lookup_self] at hrecord
    cases hrecord
  · rw [uninstall_lookup_ne hn] at hrecord
    exact h record hrecord

theorem uninstallAll_flagged {flag : Bool} {n : Name} :
    ∀ (ns : List Name) {w : World}, Flagged flag n w.db → Flagged flag n (uninstallAll ns w).db
  | [], _, h => h
  | m :: ns, w, h => by
      rw [uninstallAll]
      split
      · exact uninstallAll_flagged ns h
      · exact uninstallAll_flagged ns (uninstall_flagged h)

/-- **Nested calls.** What a call on behalf of another package writes is
not explicit, unless it was before. A top-level call writes only the
record it was asked for otherwise. -/
theorem install_implicit {env : Env} {channel : String} {n : Name} :
    ∀ {fuel : Nat} {stack : List Name} {name : String} {version : Option String}
      {w w' : World} {result : Result},
      install env channel fuel stack name version w = some (result, w') →
      (stack = [] → result.ok = true → canonicalize name ≠ some n) →
      Flagged false n w.db → Flagged false n w'.db
  | 0, _, _, _, _, _, _, h, _, _ => by rw [install] at h; cases h
  | fuel + 1, stack, name, version, w, w', result, h, hother, hflag => by
      rcases install_cases h with ⟨r, -, rfl⟩ | ⟨package, hname, -, ⟨r, -, rfl⟩ | hrun⟩
      · exact hflag
      · exact hflag
      obtain ⟨manifest, err, new, w₁, -, hloop, hend⟩ := hrun
      have hflag₁ : Flagged false n w₁.db := by
        refine installDependencies_keeps (fun s => Flagged false n s.2.db)
          (fun r _ new w₂ dependency out w₃ _ _ hinstall hinv => ?_) (by exact hflag) hloop
        have hkept := install_implicit hinstall (by simp) hinv
        exact ⟨hkept, fun _ => hkept⟩
      rcases hend with ⟨e, r, -, -, rfl⟩ | ⟨-, hwheel⟩
      · exact uninstallAll_flagged _ hflag₁
      rcases installWheel_cases env channel stack w.txns package manifest new w₁ with
        ⟨e, user, heq, -⟩ | ⟨staged, r, -, heq⟩
      · obtain ⟨-, rfl⟩ := Prod.mk.injEq .. |>.mp (hwheel.symm.trans heq)
        exact uninstallAll_flagged (w := { w₁ with user := user }) _ hflag₁
      · obtain ⟨rfl, rfl⟩ := Prod.mk.injEq .. |>.mp (hwheel.symm.trans heq)
        intro record hrecord
        by_cases hn : n = package
        · -- the new record keeps the flag of the old one, as the stack is not empty
          subst hn
          have hstack : stack ≠ [] := fun hstack => hother hstack rfl hname
          rw [withWheel, AList.lookup_insert] at hrecord
          obtain rfl := Option.some.inj hrecord
          have hold : ((w₁.db.lookup n).map Record.explicit).getD false = false := by
            cases hlookup : w₁.db.lookup n with
            | none => rfl
            | some old => exact hflag₁ old hlookup
          simp [newRecord, hold, hstack]
        · rw [withWheel, AList.lookup_insert_ne hn] at hrecord
          exact hflag₁ record hrecord

/-- **Top-level calls.** What is installed by name is explicit. -/
theorem install_explicit {env : Env} {channel : String} {fuel : Nat} {name : String}
    {version : Option String} {n : Name} {w w' : World} {result : Result}
    (h : install env channel fuel [] name version w = some (result, w'))
    (hok : result.ok = true) (hname : canonicalize name = some n) :
    Flagged true n w'.db := by
  cases fuel with
  | zero => rw [install] at h; cases h
  | succ fuel =>
      rcases install_cases h with ⟨r, rfl, -⟩ | ⟨package, hpackage, -, ⟨r, rfl, -⟩ | hrun⟩
      · cases hok
      · cases hok
      obtain ⟨manifest, err, new, w₁, -, -, ⟨e, r, -, rfl, -⟩ | ⟨-, hwheel⟩⟩ := hrun
      · cases hok
      obtain rfl := Option.some.inj (hpackage.symm.trans hname)
      rcases installWheel_cases env channel [] w.txns package manifest new w₁ with
        ⟨e, user, heq, -⟩ | ⟨staged, r, -, heq⟩
      · obtain ⟨rfl, -⟩ := Prod.mk.injEq .. |>.mp (hwheel.symm.trans heq)
        cases hok
      · obtain ⟨-, rfl⟩ := Prod.mk.injEq .. |>.mp (hwheel.symm.trans heq)
        intro record hrecord
        rw [withWheel, AList.lookup_insert] at hrecord
        obtain rfl := Option.some.inj hrecord
        simp [newRecord]

/-! ## Top-level calls and their history -/

/-- A command of the user. Every call may meet another outside world, and
`fuel` bounds the recursion of an `install`. -/
inductive ZpipCommand where
  | install (env : Env) (channel : String) (fuel : Nat) (name : String)
      (version : Option String)
  | uninstall (fault : Op → Bool) (name : String)

namespace ZpipCommand

/-- The `ok` field of the result and the state afterwards; `none` while
the recursion has not returned. -/
def run (w : World) : ZpipCommand → Option (Bool × World)
  | .install env channel fuel name version =>
    (Zmux.install env channel fuel [] name version w).map fun out => (out.1.ok, out.2)
  | .uninstall fault name => some (uninstallNamed fault name w)

/-- The package a command asks to install. -/
def requests : ZpipCommand → Option Name
  | .install _ _ _ name _ => canonicalize name
  | .uninstall .. => none

end ZpipCommand

/-- A command that has returned, and the database it left. -/
structure Invoked where
  command : ZpipCommand
  ok : Bool
  db : Db

/-- The command installed `n` by name. -/
def Invoked.Installs (n : Name) (e : Invoked) : Prop :=
  e.ok = true ∧ e.command.requests = some n

/-- `n` was installed by name, and its record was never absent since. The
latest command comes first. -/
def Wanted (n : Name) : List Invoked → Prop
  | [] => False
  | e :: earlier => (e.db.lookup n).isSome = true ∧ (e.Installs n ∨ Wanted n earlier)

structure ZpipLog where
  world : World
  history : List Invoked

/-- The next command runs to its end. -/
def ZpipLog.step (s : ZpipLog) (command : ZpipCommand) : Option ZpipLog :=
  (command.run s.world).map fun out => ⟨out.2, ⟨command, out.1, out.2.db⟩ :: s.history⟩

theorem ZpipLog.step_cases {s s' : ZpipLog} {command : ZpipCommand}
    (h : s.step command = some s') :
    ∃ ok w', command.run s.world = some (ok, w')
      ∧ s' = ⟨w', ⟨command, ok, w'.db⟩ :: s.history⟩ := by
  obtain ⟨⟨ok, w'⟩, hrun, rfl⟩ := Option.map_eq_some_iff.mp h
  exact ⟨ok, w', hrun, rfl⟩

section Command

variable {command : ZpipCommand} {w w' : World} {ok : Bool} {n : Name}

/-- A command that did not install `n` by name leaves its record as it is,
or erases it. -/
theorem ZpipCommand.run_frame (h : command.run w = some (ok, w'))
    (hother : ok = true → command.requests ≠ some n) (hn : (w.db.lookup n).isSome = true) :
    w'.db.lookup n = none ∨ w'.db.lookup n = w.db.lookup n := by
  cases command with
  | install env channel fuel name version =>
      obtain ⟨⟨result, w''⟩, hinstall, heq⟩ := Option.map_eq_some_iff.mp h
      obtain ⟨rfl, rfl⟩ := Prod.mk.injEq .. |>.mp heq
      exact Or.inr (install_frame hinstall hn hother).1
  | uninstall fault name =>
      have hlookup := uninstallNamed_lookup fault name w n
      rwa [Option.some.inj h] at hlookup

/-- A command that did not install `n` by name makes no explicit record
of it. -/
theorem ZpipCommand.run_implicit (h : command.run w = some (ok, w'))
    (hother : ok = true → command.requests ≠ some n) (hn : w.db.lookup n = none) :
    Flagged false n w'.db := by
  have hflag : Flagged false n w.db := fun record hrecord => by
    rw [hn] at hrecord
    cases hrecord
  cases command with
  | install env channel fuel name version =>
      obtain ⟨⟨result, w''⟩, hinstall, heq⟩ := Option.map_eq_some_iff.mp h
      obtain ⟨rfl, rfl⟩ := Prod.mk.injEq .. |>.mp heq
      exact install_implicit hinstall (fun _ => hother) hflag
  | uninstall fault name =>
      have hlookup := uninstallNamed_lookup fault name w n
      rw [Option.some.inj h] at hlookup
      intro record hrecord
      rcases hlookup with hgone | hsame
      · rw [hgone] at hrecord
        cases hrecord
      · exact hflag record (hsame ▸ hrecord)

theorem ZpipCommand.run_explicit (h : command.run w = some (ok, w')) (hok : ok = true)
    (hrequests : command.requests = some n) : Flagged true n w'.db := by
  cases command with
  | install env channel fuel name version =>
      obtain ⟨⟨result, w''⟩, hinstall, heq⟩ := Option.map_eq_some_iff.mp h
      obtain ⟨rfl, rfl⟩ := Prod.mk.injEq .. |>.mp heq
      exact install_explicit hinstall hok hrequests
  | uninstall fault name => cases hrequests

end Command

/-! ## Runs -/

/-- What is recorded is explicit if and only if it is wanted, and nothing
absent is wanted. -/
structure Tracked (s : ZpipLog) (n : Name) : Prop where
  flag : ∀ record, s.world.db.lookup n = some record →
    (record.explicit = true ↔ Wanted n s.history)
  absent : s.world.db.lookup n = none → ¬Wanted n s.history

theorem tracked_start {w : World} (hempty : w.db = ∅) (n : Name) : Tracked ⟨w, []⟩ n where
  flag record hrecord := by
    rw [hempty, AList.lookup_empty] at hrecord
    cases hrecord
  absent _ hwanted := hwanted

theorem tracked_step {s s' : ZpipLog} {command : ZpipCommand} {n : Name} (h : Tracked s n)
    (hstep : s.step command = some s') : Tracked s' n := by
  obtain ⟨ok, w', hrun, rfl⟩ := ZpipLog.step_cases hstep
  refine ⟨fun record hrecord => ?_, fun hgone hwanted => ?_⟩
  · have hthere : (w'.db.lookup n).isSome = true := by rw [hrecord]; rfl
    by_cases hinstalls : ok = true ∧ command.requests = some n
    · have hflag := ZpipCommand.run_explicit hrun hinstalls.1 hinstalls.2 record hrecord
      exact iff_of_true hflag ⟨hthere, Or.inl hinstalls⟩
    · have hother : ok = true → command.requests ≠ some n :=
        fun hok heq => hinstalls ⟨hok, heq⟩
      have hearlier : Wanted n (⟨command, ok, w'.db⟩ :: s.history) ↔ Wanted n s.history :=
        ⟨fun hwanted => hwanted.2.resolve_left hinstalls,
          fun hwanted => ⟨hthere, Or.inr hwanted⟩⟩
      rw [hearlier]
      cases hbefore : s.world.db.lookup n with
      | none =>
          have hflag := ZpipCommand.run_implicit hrun hother hbefore record hrecord
          exact iff_of_false (by simp [hflag]) (h.absent hbefore)
      | some old =>
          rcases ZpipCommand.run_frame hrun hother (by rw [hbefore]; rfl) with hgone | hsame
          · rw [hgone] at hrecord
            cases hrecord
          · refine h.flag record ?_
            rw [← hsame, hrecord]
  · have hthere := hwanted.1
    rw [hgone] at hthere
    cases hthere

/-- **The explicit flag.** After any commands on an empty database, a
recorded package is explicit if and only if one of them installed it by
name and its record has been there since. And no further command changes
the flag of a record it keeps, unless it installs that package by name. -/
theorem explicit_iff_wanted {w₀ : World} (hempty : w₀.db = ∅) {s : ZpipLog}
    (hrun : Reach ZpipLog.step Free ⟨w₀, []⟩ s) (n : Name) (record : Record)
    (hrecord : s.world.db.lookup n = some record) :
    (record.explicit = true ↔ Wanted n s.history)
    ∧ ∀ (command : ZpipCommand) (ok : Bool) (w' : World), command.run s.world = some (ok, w') →
        (ok = true → command.requests ≠ some n) →
        ∀ record', w'.db.lookup n = some record' → record'.explicit = record.explicit := by
  have htracked : Tracked s n := hrun.invariant (Tracked · n) (tracked_start hempty n)
    fun _ _ _ hs _ hstep => tracked_step hs hstep
  refine ⟨htracked.flag record hrecord, fun command ok w' hcommand hother record' hafter => ?_⟩
  rcases ZpipCommand.run_frame hcommand hother (by rw [hrecord]; rfl) with hgone | hsame
  · rw [hgone] at hafter
    cases hafter
  · rw [hsame, hrecord] at hafter
    rw [Option.some.inj hafter]

/-- `a` pulls in `b`, `b` is installed by name, and `p` fails: `b` is
wanted. -/
theorem explicit_after_dependency : ∃ s, Reach ZpipLog.step Free ⟨emptyWorld, []⟩ s
    ∧ Wanted "b" s.history := by
  have hreplay : (replay ZpipLog.step Free ⟨emptyWorld, []⟩
      (["a", "b", "p"].map fun name => .install (chainEnv ["b"]) "stable" 4 name none)).map
        (fun s => (s.world.db.lookup "b").any Record.explicit) = some true := by
    decide +kernel
  obtain ⟨s, hrun, hexplicit⟩ := reach_of_replay hreplay
  obtain ⟨record, hrecord, hflag⟩ := (Option.any_eq_true _ _).mp hexplicit
  exact ⟨s, hrun, (explicit_iff_wanted rfl hrun "b" record hrecord).1.mp hflag⟩

end Zmux
