import Mathlib.Data.List.Basic
import Mathlib.Logic.Function.Basic
import Zmux.Runs
import Zmux.SwapSlot

/-!
# Standard streams of concurrent executions

`_exec_python` and `_exec_zmux_command` of `python_shell.py` replace
process-wide variables for the time of one execution: `sys.stdout` and
`sys.stderr`, `sys.stdin` if the session provides one, and the progress
sinks of `zpip` and `linuxenv` if the session has an output sink. The
workers of all sessions and the REST threads do so in one process.

An object in one of the variables is `none`, the original one, or belongs
to a session. What a thread does with a variable, it does with the object
that is in it at that moment. `Nested` is the condition under which this
is its own session's object, and under which the originals are back when
nobody executes: no execution uses or restores a variable over the head
of one that replaced it later and is still running.
-/

namespace Zmux

inductive Stream where
  | stdout
  | stderr
  | stdin
  | zpipSink
  | linuxSink
deriving DecidableEq

/-- `python` executes Python source, with or without a stdin provider;
`command` an app-control command, with or without an output sink. -/
inductive Kind where
  | python (stdinProvider : Bool)
  | command (outputSink : Bool)
deriving DecidableEq

namespace Kind

/-- The variables in the order they are saved, and whether they are
replaced. Without an output sink the progress sinks are saved and
restored all the same. -/
def swaps : Kind → List (Stream × Bool)
  | .python true => [(.stdout, true), (.stderr, true), (.stdin, true)]
  | .python false => [(.stdout, true), (.stderr, true)]
  | .command sink => [(.zpipSink, sink), (.linuxSink, sink), (.stdout, true), (.stderr, true)]

/-- The variables in the order they are restored. -/
def restores : Kind → List Stream
  | .python true => [.stdin, .stderr, .stdout]
  | .python false => [.stderr, .stdout]
  | .command _ => [.stderr, .stdout, .zpipSink, .linuxSink]

theorem mem_restores {kind : Kind} {v : Stream} (h : v ∈ kind.swaps.map Prod.fst) :
    v ∈ kind.restores := by
  rcases kind with ⟨_ | _⟩ | sink
  · simp only [swaps, restores, List.map_cons, List.map_nil, List.mem_cons] at h ⊢
    tauto
  · simp only [swaps, restores, List.map_cons, List.map_nil, List.mem_cons] at h ⊢
    tauto
  · simp only [swaps, restores, List.map_cons, List.map_nil, List.mem_cons] at h ⊢
    tauto

end Kind

/-- Where a thread is in an execution. -/
inductive ExecPc where
  | idle
  | entering (kind : Kind) (done : List Stream) (todo : List (Stream × Bool))
  | running (kind : Kind)
  | leaving (todo : List Stream)

/-- The variables the thread has saved and not restored yet. -/
def ExecPc.held : ExecPc → List Stream
  | .idle => []
  | .entering _ done _ => done
  | .running kind => kind.swaps.map Prod.fst
  | .leaving todo => todo

/-- A use of a variable by the code of a session: whether this execution
has replaced the variable, and the object it found. -/
structure Access (Session : Type*) where
  session : Session
  stream : Stream
  replaced : Bool
  object : Option Session
deriving DecidableEq

/-- The code used its own session's object, or the original object of a
variable that its execution does not replace. -/
def Access.Own {Session : Type*} (a : Access Session) : Prop :=
  a.object = some a.session ∨ a.replaced = false ∧ a.object = none

structure Process (Thread Session : Type*) where
  slots : Stream → Slot Thread (Option Session)
  pc : Thread → ExecPc
  accesses : List (Access Session)

inductive ExecStep (Thread : Type*) where
  | execute (t : Thread) (kind : Kind)
  /-- The next swap or restore. -/
  | go (t : Thread)
  | use (t : Thread) (v : Stream)
  | finish (t : Thread)

namespace Process

section Process

variable {Thread Session : Type*} [DecidableEq Thread] [DecidableEq Session]
  (session : Thread → Session)

def start : Process Thread Session where
  slots _ := ⟨none, []⟩
  pc _ := .idle
  accesses := []

def goto (s : Process Thread Session) (t : Thread) (pc : ExecPc) : Process Thread Session :=
  { s with pc := Function.update s.pc t pc }

/-- The execution of the thread has replaced the variable. -/
def replaces (s : Process Thread Session) (t : Thread) (v : Stream) : Bool :=
  (s.slots v).holders.any fun h => h.owner = t && h.installed.isSome

def step (s : Process Thread Session) : ExecStep Thread → Option (Process Thread Session)
  | .execute t kind =>
    match s.pc t with
    | .idle => some (s.goto t (.entering kind [] kind.swaps))
    | _ => none
  | .go t =>
    match s.pc t with
    | .entering kind done ((v, replace) :: todo) =>
      let installed := if replace then some (some (session t)) else none
      some { s.goto t (.entering kind (done ++ [v]) todo) with
        slots := Function.update s.slots v ((s.slots v).enter t installed) }
    | .entering kind _ [] => some (s.goto t (.running kind))
    | .leaving (v :: todo) =>
      some { s.goto t (.leaving todo) with
        slots := Function.update s.slots v ((s.slots v).leave t) }
    | .leaving [] => some (s.goto t .idle)
    | _ => none
  | .use t v =>
    match s.pc t with
    | .running _ => some { s with
        accesses := s.accesses ++ [⟨session t, v, s.replaces t v, (s.slots v).current⟩] }
    | _ => none
  | .finish t =>
    match s.pc t with
    | .running kind => some (s.goto t (.leaving kind.restores))
    | _ => none

/-- What a thread restores is what the executions still in progress make
of the variable. -/
def Restores (s : Process Thread Session) (t : Thread) : ExecPc → Prop
  | .leaving (v :: _) => (s.slots v).saved t = topOf none ((s.slots v).others t)
  | _ => True

/-- A variable is used only while the execution in progress that replaced
it last is of the same session, and restored as `Restores` says. -/
def Nested (s : Process Thread Session) : ExecStep Thread → Prop
  | .use t v => ∀ h ∈ replacer (s.slots v).holders, session h.owner = session t
  | .go t => Restores s t (s.pc t)
  | _ => True

instance (s : Process Thread Session) (t : Thread) (pc : ExecPc) : Decidable (Restores s t pc) :=
  match pc with
  | .leaving (v :: _) => inferInstanceAs
      (Decidable ((s.slots v).saved t = topOf none ((s.slots v).others t)))
  | .leaving [] | .idle | .entering _ _ _ | .running _ => instDecidableTrue

instance (s : Process Thread Session) (a : ExecStep Thread) : Decidable (Nested session s a) :=
  match a with
  | .use t v => inferInstanceAs
      (Decidable (∀ h ∈ replacer (s.slots v).holders, session h.owner = session t))
  | .go t => inferInstanceAs (Decidable (Restores s t (s.pc t)))
  | .execute _ _ | .finish _ => instDecidableTrue

/-! ## The invariant -/

structure Orderly (s : Process Thread Session) : Prop where
  tidy : ∀ v, (s.slots v).Tidy none
  /-- An execution puts in objects of its own session. -/
  installed : ∀ v, ∀ h ∈ (s.slots v).holders, ∀ object, h.installed = some object →
    object = some (session h.owner)
  held : ∀ v, ∀ h ∈ (s.slots v).holders, v ∈ (s.pc h.owner).held
  plan : ∀ t kind done todo, s.pc t = .entering kind done todo →
    done ++ todo.map Prod.fst = kind.swaps.map Prod.fst
  own : ∀ a ∈ s.accesses, a.Own

variable {session} {s s' : Process Thread Session} {t : Thread}

omit [DecidableEq Session] in
@[simp] theorem goto_pc_self (s : Process Thread Session) (t : Thread) (pc : ExecPc) :
    (s.goto t pc).pc t = pc := Function.update_self ..

omit [DecidableEq Session] in
theorem goto_pc_ne (s : Process Thread Session) {t t' : Thread} (pc : ExecPc) (h : t' ≠ t) :
    (s.goto t pc).pc t' = s.pc t' := Function.update_of_ne h ..

omit [DecidableEq Session] in
/-- A thread that moves on without touching a variable. -/
theorem Orderly.move (h : Orderly session s) {pc : ExecPc}
    (hheld : ∀ v ∈ (s.pc t).held, v ∈ pc.held)
    (hplan : ∀ kind done todo, pc = .entering kind done todo →
      done ++ todo.map Prod.fst = kind.swaps.map Prod.fst) :
    Orderly session (s.goto t pc) where
  tidy := h.tidy
  installed := h.installed
  held v hd hmem := by
    by_cases hown : hd.owner = t
    · rw [hown, goto_pc_self]
      exact hheld v (hown ▸ h.held v hd hmem)
    · rw [goto_pc_ne s pc hown]
      exact h.held v hd hmem
  plan t' kind done todo ht' := by
    by_cases htt : t' = t
    · subst htt
      rw [goto_pc_self] at ht'
      exact hplan kind done todo ht'
    · rw [goto_pc_ne s pc htt] at ht'
      exact h.plan t' kind done todo ht'
  own := h.own

omit [DecidableEq Session] in
theorem orderly_enter (h : Orderly session s) {kind : Kind} {done : List Stream} {v : Stream}
    {replace : Bool} {todo : List (Stream × Bool)}
    (hpc : s.pc t = .entering kind done ((v, replace) :: todo)) :
    Orderly session { s.goto t (.entering kind (done ++ [v]) todo) with
      slots := Function.update s.slots v ((s.slots v).enter t
        (if replace then some (some (session t)) else none)) } := by
  have hplan := h.plan t kind done _ hpc
  have hmoved : Orderly session (s.goto t (.entering kind (done ++ [v]) todo)) := by
    refine h.move (fun u hu => ?_) fun kind' done' todo' heq => ?_
    · rw [hpc] at hu
      exact List.mem_append_left _ hu
    · obtain ⟨rfl, rfl, rfl⟩ := ExecPc.entering.inj heq
      rw [← hplan]
      simp
  refine ⟨fun u => ?_, fun u hd hmem object hobject => ?_, fun u hd hmem => ?_, hmoved.plan,
    hmoved.own⟩
  · by_cases huv : u = v
    · subst huv
      simp only [Function.update_self]
      exact Slot.tidy_enter (h.tidy u) t _
    · simp only [Function.update_of_ne huv]
      exact h.tidy u
  · by_cases huv : u = v
    · subst huv
      simp only [Function.update_self] at hmem
      rcases List.mem_cons.mp hmem with rfl | hmem
      · dsimp only at hobject
        split at hobject
        · exact (Option.some.inj hobject).symm
        · cases hobject
      · exact h.installed u hd hmem object hobject
    · simp only [Function.update_of_ne huv] at hmem
      exact h.installed u hd hmem object hobject
  · by_cases huv : u = v
    · subst huv
      simp only [Function.update_self] at hmem
      rcases List.mem_cons.mp hmem with rfl | hmem
      · simp [ExecPc.held]
      · exact hmoved.held u hd hmem
    · simp only [Function.update_of_ne huv] at hmem
      exact hmoved.held u hd hmem

omit [DecidableEq Session] in
theorem orderly_leave (h : Orderly session s) {v : Stream} {todo : List Stream}
    (hpc : s.pc t = .leaving (v :: todo))
    (hok : (s.slots v).saved t = topOf none ((s.slots v).others t)) :
    Orderly session { s.goto t (.leaving todo) with
      slots := Function.update s.slots v ((s.slots v).leave t) } := by
  refine ⟨fun u => ?_, fun u hd hmem object hobject => ?_, fun u hd hmem => ?_,
    fun t' kind done todo' ht' => ?_, h.own⟩
  · by_cases huv : u = v
    · subst huv
      simp only [Function.update_self]
      exact Slot.tidy_leave_iff.mpr hok
    · simp only [Function.update_of_ne huv]
      exact h.tidy u
  · by_cases huv : u = v
    · subst huv
      simp only [Function.update_self] at hmem
      exact h.installed u hd (List.mem_filter.mp hmem).1 object hobject
    · simp only [Function.update_of_ne huv] at hmem
      exact h.installed u hd hmem object hobject
  · by_cases hown : hd.owner = t
    · -- the thread itself holds only what it still has to restore
      have huv : u ≠ v := by
        rintro rfl
        simp only [Function.update_self] at hmem
        exact of_decide_eq_true (List.mem_filter.mp hmem).2 hown
      simp only [Function.update_of_ne huv] at hmem
      have hheld := h.held u hd hmem
      rw [hown, hpc] at hheld
      simp only [hown, goto_pc_self]
      exact (List.mem_cons.mp hheld).resolve_left huv
    · have hmem' : hd ∈ (s.slots u).holders := by
        by_cases huv : u = v
        · subst huv
          simp only [Function.update_self] at hmem
          exact (List.mem_filter.mp hmem).1
        · simpa only [Function.update_of_ne huv] using hmem
      simp only [goto_pc_ne s _ hown]
      exact h.held u hd hmem'
  · by_cases htt : t' = t
    · subst htt
      simp at ht'
    · simp only [goto_pc_ne s _ htt] at ht'
      exact h.plan t' kind done todo' ht'

omit [DecidableEq Session] in
theorem orderly_use (h : Orderly session s) {v : Stream}
    (hok : ∀ hd ∈ replacer (s.slots v).holders, session hd.owner = session t) :
    Orderly session { s with
      accesses := s.accesses ++ [⟨session t, v, s.replaces t v, (s.slots v).current⟩] } := by
  refine ⟨h.tidy, h.installed, h.held, h.plan, fun a ha => ?_⟩
  rcases List.mem_append.mp ha with ha | ha
  · exact h.own a ha
  rw [List.mem_singleton.mp ha]
  have hcurrent : (s.slots v).current = topOf none (s.slots v).holders := h.tidy v
  rw [Access.Own]
  dsimp only
  rw [hcurrent, topOf_eq_replacer]
  cases hreplacer : replacer (s.slots v).holders with
  | none =>
      refine Or.inr ⟨?_, rfl⟩
      rw [replacer, List.find?_eq_none] at hreplacer
      rw [replaces, List.any_eq_false]
      intro hd hmem
      simp [hreplacer hd hmem]
  | some hd =>
      have hmem : hd ∈ (s.slots v).holders := List.mem_of_find?_eq_some hreplacer
      have hsome : hd.installed.isSome = true := by
        rw [replacer] at hreplacer
        simpa using List.find?_some hreplacer
      obtain ⟨object, hobject⟩ := Option.isSome_iff_exists.mp hsome
      refine Or.inl ?_
      rw [Option.bind_some, hobject, Option.getD_some, h.installed v hd hmem object hobject,
        hok hd hreplacer]

/-! ## Every run -/

omit [DecidableEq Thread] [DecidableEq Session] in
theorem orderly_start : Orderly session (start : Process Thread Session) where
  tidy _ := rfl
  installed _ _ hmem := (List.not_mem_nil hmem).elim
  held _ _ hmem := (List.not_mem_nil hmem).elim
  plan _ _ _ _ ht := by cases ht
  own _ ha := (List.not_mem_nil ha).elim

omit [DecidableEq Session] in
theorem orderly_step (a : ExecStep Thread) (h : Orderly session s) (hok : Nested session s a)
    (hs : step session s a = some s') : Orderly session s' := by
  cases a with
  | execute t kind =>
      rw [step] at hs
      split at hs
      · rename_i hpc
        obtain rfl := Option.some.inj hs
        refine h.move (fun v hv => ?_) fun kind' done todo heq => ?_
        · rw [hpc] at hv
          exact (List.not_mem_nil hv).elim
        · obtain ⟨rfl, rfl, rfl⟩ := ExecPc.entering.inj heq
          rfl
      · cases hs
  | go t =>
      rw [step] at hs
      rw [Nested] at hok
      split at hs
      · rename_i kind done v replace todo hpc
        obtain rfl := Option.some.inj hs
        exact orderly_enter h hpc
      · rename_i kind done hpc
        obtain rfl := Option.some.inj hs
        refine h.move (fun v hv => ?_) nofun
        rw [hpc] at hv
        have hplan := h.plan t kind done [] hpc
        rw [List.map_nil, List.append_nil] at hplan
        show v ∈ kind.swaps.map Prod.fst
        rw [← hplan]
        exact hv
      · rename_i v todo hpc
        obtain rfl := Option.some.inj hs
        rw [hpc] at hok
        exact orderly_leave h hpc hok
      · rename_i hpc
        obtain rfl := Option.some.inj hs
        refine h.move (fun v hv => ?_) nofun
        rw [hpc] at hv
        exact (List.not_mem_nil hv).elim
      · cases hs
  | use t v =>
      rw [step] at hs
      split at hs
      · obtain rfl := Option.some.inj hs
        exact orderly_use h hok
      · cases hs
  | finish t =>
      rw [step] at hs
      split at hs
      · rename_i kind hpc
        obtain rfl := Option.some.inj hs
        refine h.move (fun v hv => ?_) nofun
        rw [hpc] at hv
        exact Kind.mem_restores hv
      · cases hs

/-- Every use was of the session's own objects, and whenever no execution
is in progress all variables hold the original ones. -/
def Captured (s : Process Thread Session) : Prop :=
  (∀ a ∈ s.accesses, a.Own) ∧ ((∀ t, s.pc t = .idle) → ∀ v, (s.slots v).current = none)

omit [DecidableEq Thread] [DecidableEq Session] in
theorem Orderly.captured (h : Orderly session s) : Captured s := by
  refine ⟨h.own, fun hidle v => ?_⟩
  have hnone : (s.slots v).holders = [] := by
    refine List.eq_nil_iff_forall_not_mem.mpr fun hd hmem => ?_
    have hheld := h.held v hd hmem
    rw [hidle hd.owner] at hheld
    exact List.not_mem_nil hheld
  have hcurrent : (s.slots v).current = topOf none (s.slots v).holders := h.tidy v
  rw [hcurrent, hnone]
  rfl

omit [DecidableEq Session] in
/-- **Sessions keep their streams** in every run of nested steps. -/
theorem streams_captured (h : Reach (step session) (Nested session) start s) : Captured s :=
  (h.invariant (Orderly session) orderly_start
    fun _ a _ hs hok hnext => orderly_step a hs hok hnext).captured

/-! ## Overlapping executions

Thread 1 starts an execution while thread 0 is in one. If thread 0 writes
then, it writes to session 1; if thread 1 ends first, it does not. -/

instance (a : Access Session) : Decidable a.Own :=
  inferInstanceAs (Decidable (_ ∨ _))

/-- Thread `t` replaces `sys.stdout` and `sys.stderr` and starts to run. -/
def begin (t : Fin 2) : List (ExecStep (Fin 2)) :=
  [.execute t (.python false), .go t, .go t, .go t]

theorem overlapped_write_is_captured :
    ∃ s, Reach (step id) Free (start : Process (Fin 2) (Fin 2)) s ∧ ¬Captured s := by
  obtain ⟨s, hs, hbad⟩ := reach_of_replay
    (p := fun s : Process (Fin 2) (Fin 2) => decide ¬∀ a ∈ s.accesses, a.Own)
    (show (replay (step id) Free (start : Process (Fin 2) (Fin 2))
      (begin 0 ++ begin 1 ++ [.use 0 .stdout])).map _ = some true by decide)
  exact ⟨s, hs, fun h => of_decide_eq_true hbad h.1⟩

/-- Thread 0 writes before and after thread 1's execution. -/
theorem nested_executions_captured :
    ∃ s : Process (Fin 2) (Fin 2), s.accesses.length = 3 ∧ Captured s := by
  obtain ⟨s, hs, hlength⟩ := reach_of_replay
    (p := fun s : Process (Fin 2) (Fin 2) => decide (s.accesses.length = 3))
    (show (replay (step id) (Nested id) (start : Process (Fin 2) (Fin 2))
      (begin 0 ++ [.use 0 .stdout] ++ begin 1 ++ [.use 1 .stderr, .finish 1, .go 1, .go 1, .go 1]
        ++ [.use 0 .stdout, .finish 0, .go 0, .go 0, .go 0])).map _ = some true by decide)
  exact ⟨s, of_decide_eq_true hlength, streams_captured hs⟩

end Process

end Process

end Zmux
