import Mathlib.Logic.Function.Basic
import Zmux.Runs

/-!
# Programs over one shared store

Threads share a store that each of them reads as a whole (`load`) and
writes back as a whole: a `save` stores the copy the thread has loaded,
with one update made on it. Everything else a thread does is an effect on
the rest of the state (`act`), with an answer it goes on from. A program
is the tree of all it may do next.

Run alone, a program is a function on the state (`Prog.run`). Threads are
interleaved step by step (`System.step`), and the updates they save are
kept in a log. A save is `Current` when the update has the same effect on
the copy as on the store it overwrites; then nothing is lost: the store is
what the updates of the log make of the store at the start
(`lossless_of_reach`). The effect is compared under a view of the store.

`Prog.Ends` says what holds however a program ends, given the last update
it has saved.
-/

namespace Zmux

/-! ## Programs -/

inductive Prog (D U : Type) {A : Type} (Answer : A → Type) (α : Type) where
  | done (a : α)
  | load (next : D → Prog D U Answer α)
  | save (copy : D) (update : U) (next : Prog D U Answer α)
  | act (a : A) (next : Answer a → Prog D U Answer α)

section Programs

variable {D U A S α β : Type} {Answer : A → Type}

namespace Prog

def bind : Prog D U Answer α → (α → Prog D U Answer β) → Prog D U Answer β
  | done a, f => f a
  | load next, f => load fun d => (next d).bind f
  | save copy update next, f => save copy update (next.bind f)
  | act a next, f => act a fun answer => (next answer).bind f

/-- The program run alone. -/
def run (apply : U → D → D) (perform : (a : A) → S → Answer a × S) :
    Prog D U Answer α → D × S → α × D × S
  | done a, s => (a, s)
  | load next, s => (next s.1).run apply perform s
  | save copy update next, s => next.run apply perform (apply update copy, s.2)
  | act a next, s =>
    (next (perform a s.2).1).run apply perform (s.1, (perform a s.2).2)

theorem run_bind (apply : U → D → D) (perform : (a : A) → S → Answer a × S)
    (f : α → Prog D U Answer β) : ∀ (p : Prog D U Answer α) (s : D × S),
      (p.bind f).run apply perform s
        = (f (p.run apply perform s).1).run apply perform (p.run apply perform s).2
  | done _, _ => rfl
  | load next, s => run_bind apply perform f (next s.1) s
  | save copy update next, s => run_bind apply perform f next (apply update copy, s.2)
  | act a next, s => run_bind apply perform f (next (perform a s.2).1) (s.1, (perform a s.2).2)

/-- Whatever is loaded and answered, the program ends with a result and a
last update for which `post` holds. -/
def Ends (post : α → Option U → Prop) : Prog D U Answer α → Option U → Prop
  | done a, last => post a last
  | load next, last => ∀ d, (next d).Ends post last
  | save _ update next, _ => next.Ends post (some update)
  | act _ next, last => ∀ answer, (next answer).Ends post last

theorem ends_of_forall {post : α → Option U → Prop} (h : ∀ a last, post a last) :
    ∀ (p : Prog D U Answer α) (last : Option U), p.Ends post last
  | done a, last => h a last
  | load next, last => fun d => ends_of_forall h (next d) last
  | save _ update next, _ => ends_of_forall h next (some update)
  | act _ next, last => fun answer => ends_of_forall h (next answer) last

theorem Ends.imp {post post' : α → Option U → Prop} (himp : ∀ a last, post a last → post' a last)
    {p : Prog D U Answer α} {last : Option U} (h : p.Ends post last) : p.Ends post' last := by
  induction p generalizing last with
  | done a => exact himp a last h
  | load next ih => exact fun d => ih d (h d)
  | save copy update next ih => exact ih h
  | act a next ih => exact fun answer => ih answer (h answer)

theorem ends_bind {post : β → Option U → Prop} {f : α → Prog D U Answer β}
    {p : Prog D U Answer α} {last : Option U}
    (h : p.Ends (fun a last => (f a).Ends post last) last) : (p.bind f).Ends post last := by
  induction p generalizing last with
  | done a => exact h
  | load next ih => exact fun d => ih d (h d)
  | save copy update next ih => exact ih h
  | act a next ih => exact fun answer => ih answer (h answer)

end Prog

/-! ## Threads -/

variable {ι : Type}

structure System (ι D U : Type) {A : Type} (Answer : A → Type) (S α : Type) where
  threads : ι → Prog D U Answer α
  store : D
  rest : S
  log : List (ι × U)

namespace System

def start (programs : ι → Prog D U Answer α) (store : D) (rest : S) :
    System ι D U Answer S α := ⟨programs, store, rest, []⟩

/-- If thread `i` saves now, its update means the same on its copy and on
the store. -/
def Current {V : Type} (apply : U → D → D) (view : D → V) (s : System ι D U Answer S α) (i : ι) :
    Prop :=
  match s.threads i with
  | .save copy update _ => view (apply update copy) = view (apply update s.store)
  | _ => True

/-- What the updates of the log make of `d`. -/
def replayed (apply : U → D → D) (log : List (ι × U)) (d : D) : D :=
  log.foldl (fun d entry => apply entry.2 d) d

theorem replayed_snoc (apply : U → D → D) (log : List (ι × U)) (entry : ι × U) (d : D) :
    replayed apply (log ++ [entry]) d = apply entry.2 (replayed apply log d) := by
  simp [replayed]

variable [DecidableEq ι]

/-- The next step of thread `i`. -/
def step (apply : U → D → D) (perform : (a : A) → S → Answer a × S)
    (s : System ι D U Answer S α) (i : ι) : Option (System ι D U Answer S α) :=
  match s.threads i with
  | .done _ => none
  | .load next => some { s with threads := Function.update s.threads i (next s.store) }
  | .save copy update next => some
      { s with
        threads := Function.update s.threads i next
        store := apply update copy
        log := s.log ++ [(i, update)] }
  | .act a next => some
      { s with
        threads := Function.update s.threads i (next (perform a s.rest).1)
        rest := (perform a s.rest).2 }

section Lossless

variable {V : Type} {apply : U → D → D} {perform : (a : A) → S → Answer a × S} {view : D → V}
  (hview : ∀ u d d', view d = view d' → view (apply u d) = view (apply u d'))

include hview in
/-- A step keeps the store in line with the log precisely when it is
`Current`. -/
theorem lossless_step_iff {s s' : System ι D U Answer S α} {i : ι} {d : D}
    (h : view s.store = view (replayed apply s.log d)) (hstep : s.step apply perform i = some s') :
    view s'.store = view (replayed apply s'.log d) ↔ s.Current apply view i := by
  unfold step at hstep
  unfold Current
  split at hstep
  · cases hstep
  · rename_i hthread
    obtain rfl := Option.some.inj hstep
    rw [hthread]
    exact iff_of_true h trivial
  · rename_i copy update next hthread
    obtain rfl := Option.some.inj hstep
    rw [hthread, replayed_snoc, hview update _ _ h.symm]
  · rename_i hthread
    obtain rfl := Option.some.inj hstep
    rw [hthread]
    exact iff_of_true h trivial

include hview in
/-- **No lost update**, as long as every save is current. -/
theorem lossless_of_reach {programs : ι → Prog D U Answer α} {d : D} {rest : S}
    {s : System ι D U Answer S α}
    (hrun : Reach (step apply perform) (Current apply view) (start programs d rest) s) :
    view s.store = view (replayed apply s.log d) :=
  hrun.invariant (fun s => view s.store = view (replayed apply s.log d)) rfl
    fun _ _ _ h hok hstep => (lossless_step_iff hview h hstep).mpr hok

end Lossless

/-! ## The end of a thread -/

/-- The last update thread `i` has saved. -/
def lastOf (i : ι) (log : List (ι × U)) : Option U :=
  (log.reverse.find? fun entry => entry.1 = i).map Prod.snd

theorem lastOf_self (i : ι) (log : List (ι × U)) (u : U) :
    lastOf i (log ++ [(i, u)]) = some u := by
  simp [lastOf]

theorem lastOf_ne {i j : ι} (h : j ≠ i) (log : List (ι × U)) (u : U) :
    lastOf j (log ++ [(i, u)]) = lastOf j log := by
  simp [lastOf, Ne.symm h]

/-- One thread goes on, and the last updates of the others stay. -/
theorem ends_update {post : ι → α → Option U → Prop} {threads : ι → Prog D U Answer α}
    {log log' : List (ι × U)} {i : ι} {p : Prog D U Answer α}
    (h : ∀ j, (threads j).Ends (post j) (lastOf j log))
    (hothers : ∀ j ≠ i, lastOf j log' = lastOf j log) (hp : p.Ends (post i) (lastOf i log'))
    (j : ι) : (Function.update threads i p j).Ends (post j) (lastOf j log') := by
  by_cases hj : j = i
  · subst hj
    rwa [Function.update_self]
  · rw [Function.update_of_ne hj, hothers j hj]
    exact h j

/-- However the threads are interleaved, each ends as its program does. -/
theorem ends_of_reach {apply : U → D → D} {perform : (a : A) → S → Answer a × S}
    {ok : System ι D U Answer S α → ι → Prop} {programs : ι → Prog D U Answer α}
    {post : ι → α → Option U → Prop} {d : D} {rest : S} {s : System ι D U Answer S α}
    (hends : ∀ i, (programs i).Ends (post i) none)
    (hrun : Reach (step apply perform) ok (start programs d rest) s) (i : ι) :
    (s.threads i).Ends (post i) (lastOf i s.log) := by
  refine hrun.invariant (fun s => ∀ i, (s.threads i).Ends (post i) (lastOf i s.log)) hends
    (fun s j s' h _ hstep => ?_) i
  have hj := h j
  unfold step at hstep
  split at hstep
  · cases hstep
  · rename_i hthread
    obtain rfl := Option.some.inj hstep
    rw [hthread] at hj
    exact ends_update h (fun _ _ => rfl) (hj _)
  · rename_i update next hthread
    obtain rfl := Option.some.inj hstep
    rw [hthread] at hj
    refine ends_update h (fun k hk => lastOf_ne hk s.log update) ?_
    rw [lastOf_self]
    exact hj
  · rename_i hthread
    obtain rfl := Option.some.inj hstep
    rw [hthread] at hj
    exact ends_update h (fun _ _ => rfl) (hj _)

end System

end Programs

end Zmux
