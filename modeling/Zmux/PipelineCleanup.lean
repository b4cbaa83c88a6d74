import Mathlib.Data.List.Basic
import Zmux.Pipeline
import Zmux.Runs

/-!
# What a pipeline leaves behind

The second half of `_exec_subprocess_inner` of `python_shell.py`, from the
parsed stages on: open the input file, find and spawn the stages one by
one, read the last one, wait for the others, write the output file. Each
step may fail. The processes exit when they like, and the `SIGKILL` of a
Ctrl+C may reach those that are registered in `_procs`.

The `finally` block takes the processes out of `_procs`, and only a
timeout kills them first. So nothing is left running as long as all that
has been spawned has ended by the time a stage is not found or cannot be
spawned (`nothing_left_running`).
-/

namespace Zmux

open Shlex (Word)

/-- A spawned process; `killed` has been sent `SIGKILL`. -/
inductive Proc where
  | running
  | killed
  | exited
deriving DecidableEq

/-- How the call ends. -/
inductive Ending where
  | notFound (command : Word)
  | timedOut
  | finished
  | raised
deriving DecidableEq

/-- Where the call is. -/
inductive SpawnPc where
  | opening (stages : List (List Word))
  | finding (stages : List (List Word))
  | spawning (stages : List (List Word))
  | reading
  /-- At the process with this index; the last one is not waited for. -/
  | waiting (i : ℕ)
  | joining
  | writing
  | showing
  | returned (ending : Ending)
deriving DecidableEq

structure PipelineRun where
  /-- There is a timeout. -/
  bounded : Bool
  pc : SpawnPc
  /-- `processes`. -/
  procs : List Proc
  /-- Those of them that are in `_procs`. -/
  registered : List ℕ

inductive SpawnStep where
  | openInput (ok : Bool)
  | find (found : Bool)
  | popen (ok : Bool)
  | read
  | wait
  | timeout
  | join
  | write (ok : Bool)
  /-- The hint about a signal; `ok` says that the sink takes it. -/
  | hint (ok : Bool)
  | exits (i : ℕ)
  | interruptKills (i : ℕ)

namespace PipelineRun

def start (bounded : Bool) (stages : List (List Word)) : PipelineRun where
  bounded := bounded
  pc := .opening stages
  procs := []
  registered := []

/-- `proc.kill()`. -/
def kill : Proc → Proc
  | .running => .killed
  | p => p

/-- `for proc in processes: proc.kill()`. -/
def killAll (s : PipelineRun) : PipelineRun := { s with procs := s.procs.map kill }

/-- The `finally` block. -/
def leave (s : PipelineRun) (ending : Ending) : PipelineRun :=
  { s with
    pc := .returned ending
    registered := s.registered.filter fun i => s.procs.length ≤ i }

def step (s : PipelineRun) : SpawnStep → Option PipelineRun
  | .openInput ok =>
    match s.pc with
    | .opening stages => some (if ok then { s with pc := .finding stages } else s.leave .raised)
    | _ => none
  | .find found =>
    match s.pc with
    | .finding (stage :: stages) =>
      some (if found then { s with pc := .spawning (stage :: stages) }
        else s.leave (.notFound (stage.headD [])))
    | .finding [] => some { s with pc := .reading }
    | _ => none
  | .popen ok =>
    match s.pc with
    | .spawning (_ :: stages) =>
      some (if ok then
          { s with
            pc := .finding stages
            procs := s.procs ++ [.running]
            registered := s.registered ++ [s.procs.length] }
        else s.leave .raised)
    | _ => none
  | .read =>
    match s.pc with
    | .reading => if s.procs.getLast? = some .exited then some { s with pc := .waiting 0 } else none
    | _ => none
  | .wait =>
    match s.pc with
    | .waiting i =>
      if i + 1 < s.procs.length then
        if s.procs[i]? = some .exited then some { s with pc := .waiting (i + 1) } else none
      else some { s with pc := .joining }
    | _ => none
  | .timeout =>
    match s.pc with
    | .reading => if s.bounded then some (s.killAll.leave .timedOut) else none
    | .waiting i =>
      if s.bounded = true ∧ i + 1 < s.procs.length then some (s.killAll.leave .timedOut) else none
    | _ => none
  | .join =>
    match s.pc with
    | .joining => some { s with pc := .writing }
    | _ => none
  | .write ok =>
    match s.pc with
    | .writing => some (if ok then { s with pc := .showing } else s.leave .raised)
    | _ => none
  | .hint ok =>
    match s.pc with
    | .showing => some (s.leave (if ok then .finished else .raised))
    | _ => none
  | .exits i =>
    if i < s.procs.length then some { s with procs := s.procs.set i .exited } else none
  | .interruptKills i =>
    if i ∈ s.registered then some { s with procs := s.procs.modify i kill } else none

/-! ## Nothing is left -/

/-- Every process has exited or has been sent a kill, in particular those
that are not in `_procs` any more. -/
structure LeftNothing (s : PipelineRun) : Prop where
  ended : ∀ p ∈ s.procs, p ≠ .running
  dropped : ∀ i p, s.procs[i]? = some p → i ∉ s.registered → p ≠ .running

theorem leftNothing_iff (s : PipelineRun) : LeftNothing s ↔ ∀ p ∈ s.procs, p ≠ .running :=
  ⟨LeftNothing.ended, fun h => ⟨h, fun _ p hp _ => h p (List.mem_of_getElem? hp)⟩⟩

/-- A stage fails only when all processes before it have ended. -/
def Settled (s : PipelineRun) : SpawnStep → Prop
  | .find false | .popen false => ∀ p ∈ s.procs, p ≠ .running
  | _ => True

instance : ∀ (s : PipelineRun) (a : SpawnStep), Decidable (Settled s a)
  | s, .find false | s, .popen false => inferInstanceAs (Decidable (∀ p ∈ s.procs, p ≠ .running))
  | _, .openInput _ | _, .find true | _, .popen true | _, .read | _, .wait | _, .timeout | _, .join
  | _, .write _ | _, .hint _ | _, .exits _ | _, .interruptKills _ => isTrue trivial

/-- What is known of the processes, by where the call is. -/
def Inv (s : PipelineRun) : Prop :=
  match s.pc with
  | .opening _ => s.procs = []
  | .finding _ | .spawning _ | .reading => True
  | .waiting i => s.procs.getLast? = some .exited ∧ ∀ j < i, s.procs[j]? = some .exited
  | .joining | .writing | .showing => ∀ p ∈ s.procs, p = .exited
  | .returned _ => ∀ p ∈ s.procs, p ≠ .running

theorem kill_ne_running (p : Proc) : kill p ≠ .running := by
  cases p <;> exact nofun

theorem killAll_ended (s : PipelineRun) : ∀ p ∈ s.killAll.procs, p ≠ .running := by
  intro p hp
  obtain ⟨q, -, rfl⟩ := List.mem_map.mp hp
  exact kill_ne_running q

/-- Processes that end one by one: what has exited stays so, and nothing
begins to run. -/
structure Ended (procs procs' : List Proc) : Prop where
  exited : ∀ i : ℕ, procs[i]? = some Proc.exited → procs'[i]? = some Proc.exited
  running : ∀ p ∈ procs', p = .running → p ∈ procs
  length : procs'.length = procs.length

theorem ended_set (procs : List Proc) (i : ℕ) : Ended procs (procs.set i .exited) where
  exited j hj := by
    rw [List.getElem?_set]
    split
    · rename_i hij
      rw [if_pos (hij ▸ (List.getElem?_eq_some_iff.mp hj).1)]
    · exact hj
  running p hp hrunning := by
    rcases List.mem_or_eq_of_mem_set hp with hp | rfl
    · exact hp
    · cases hrunning
  length := List.length_set

theorem ended_modify (procs : List Proc) (i : ℕ) : Ended procs (procs.modify i kill) where
  exited j hj := by
    rw [List.getElem?_modify, hj]
    split <;> rfl
  running p hp hrunning := by
    obtain ⟨j, hj⟩ := List.mem_iff_getElem?.mp hp
    rw [List.getElem?_modify] at hj
    obtain ⟨q, hq, hkill⟩ := Option.map_eq_some_iff.mp hj
    split at hkill
    · exact absurd (hkill.trans hrunning) (kill_ne_running q)
    · obtain rfl : q = p := hkill
      exact List.mem_of_getElem? hq
  length := List.length_modify ..

theorem Ended.all_exited {procs procs' : List Proc} (h : Ended procs procs')
    (hall : ∀ p ∈ procs, p = .exited) : ∀ p ∈ procs', p = .exited := by
  intro p hp
  obtain ⟨i, hi⟩ := List.mem_iff_getElem?.mp hp
  have hlt : i < procs.length := h.length ▸ (List.getElem?_eq_some_iff.mp hi).1
  have hexited := h.exited i (List.getElem?_eq_getElem hlt ▸
    congrArg some (hall _ (List.getElem_mem hlt)))
  exact Option.some.inj (hi.symm.trans hexited)

theorem inv_ended {s : PipelineRun} {procs' : List Proc} (hinv : Inv s)
    (h : Ended s.procs procs') : Inv { s with procs := procs' } := by
  unfold Inv at *
  dsimp only
  split at hinv
  · exact List.length_eq_zero_iff.mp (h.length.trans (List.length_eq_zero_iff.mpr hinv))
  · trivial
  · trivial
  · trivial
  · obtain ⟨hlast, hfront⟩ := hinv
    rw [List.getLast?_eq_getElem?] at hlast ⊢
    rw [h.length]
    exact ⟨h.exited _ hlast, fun j hj => h.exited j (hfront j hj)⟩
  · exact h.all_exited hinv
  · exact h.all_exited hinv
  · exact h.all_exited hinv
  · intro p hp hrunning
    exact hinv p (h.running p hp hrunning) hrunning

theorem all_exited_of_waited {s : PipelineRun} {i : ℕ} (hlast : s.procs.getLast? = some .exited)
    (hfront : ∀ j < i, s.procs[j]? = some .exited) (hi : ¬i + 1 < s.procs.length) :
    ∀ p ∈ s.procs, p = .exited := by
  intro p hp
  obtain ⟨j, hj⟩ := List.mem_iff_getElem?.mp hp
  have hlt := (List.getElem?_eq_some_iff.mp hj).1
  by_cases hji : j < i
  · exact Option.some.inj (hj.symm.trans (hfront j hji))
  · rw [List.getLast?_eq_getElem?, show s.procs.length - 1 = j by omega] at hlast
    exact Option.some.inj (hj.symm.trans hlast)

theorem inv_leave {s : PipelineRun} {ending : Ending} (h : ∀ p ∈ s.procs, p ≠ .running) :
    Inv (s.leave ending) := h

theorem ended_of_exited {s : PipelineRun} (h : ∀ p ∈ s.procs, p = .exited) :
    ∀ p ∈ s.procs, p ≠ .running := by
  intro p hp
  rw [h p hp]
  exact nofun

/-- What is known holds on, if a stage fails only when nothing is
running. -/
theorem inv_step {s s' : PipelineRun} {a : SpawnStep} (hinv : Inv s) (hok : Settled s a)
    (h : step s a = some s') : Inv s' := by
  cases a with
  | openInput ok =>
      cases hpc : s.pc <;> rw [step, hpc] at h <;> cases h
      cases ok with
      | true => exact trivial
      | false =>
          rw [Inv, hpc] at hinv
          refine inv_leave fun p hp => ?_
          rw [hinv] at hp
          cases hp
  | find found =>
      cases hpc : s.pc with
      | finding stages =>
          rw [step, hpc] at h
          cases stages with
          | nil => cases h; exact trivial
          | cons stage stages =>
              cases found with
              | true => cases h; exact trivial
              | false => cases h; exact inv_leave hok
      | _ => rw [step, hpc] at h; cases h
  | popen ok =>
      cases hpc : s.pc with
      | spawning stages =>
          rw [step, hpc] at h
          cases stages with
          | nil => cases h
          | cons stage stages =>
              cases ok with
              | true => cases h; exact trivial
              | false => cases h; exact inv_leave hok
      | _ => rw [step, hpc] at h; cases h
  | read =>
      cases hpc : s.pc <;> simp only [step, hpc, reduceCtorEq] at h
      split at h
      · rename_i hlast
        cases h
        exact ⟨hlast, nofun⟩
      · cases h
  | wait =>
      cases hpc : s.pc <;> simp only [step, hpc, reduceCtorEq] at h
      rename_i i
      rw [Inv, hpc] at hinv
      split at h
      · split at h
        · rename_i hexited
          cases h
          refine ⟨hinv.1, fun j hj => ?_⟩
          rcases Nat.lt_succ_iff_lt_or_eq.mp hj with hj | rfl
          · exact hinv.2 j hj
          · exact hexited
        · cases h
      · rename_i hend
        cases h
        exact all_exited_of_waited hinv.1 hinv.2 hend
  | timeout =>
      cases hpc : s.pc <;> simp only [step, hpc, reduceCtorEq] at h
      · split at h
        · cases h
          exact inv_leave s.killAll_ended
        · cases h
      · split at h
        · cases h
          exact inv_leave s.killAll_ended
        · cases h
  | join =>
      cases hpc : s.pc <;> rw [step, hpc] at h <;> cases h
      rw [Inv, hpc] at hinv
      exact hinv
  | write ok =>
      cases hpc : s.pc <;> rw [step, hpc] at h <;> cases h
      rw [Inv, hpc] at hinv
      cases ok with
      | true => exact hinv
      | false => exact inv_leave (ended_of_exited hinv)
  | hint ok =>
      cases hpc : s.pc <;> rw [step, hpc] at h <;> cases h
      rw [Inv, hpc] at hinv
      exact inv_leave (ended_of_exited hinv)
  | exits i =>
      rw [step] at h
      split at h
      · cases h
        exact inv_ended hinv (ended_set s.procs i)
      · cases h
  | interruptKills i =>
      rw [step] at h
      split at h
      · cases h
        exact inv_ended hinv (ended_modify s.procs i)
      · cases h

theorem leftNothing_of_inv {s : PipelineRun} {ending : Ending} (hinv : Inv s)
    (hpc : s.pc = .returned ending) : LeftNothing s := by
  rw [Inv, hpc] at hinv
  exact (leftNothing_iff s).mpr hinv

/-- The step with which the call returns leaves nothing precisely if the
condition holds. -/
theorem leftNothing_return_iff {s s' : PipelineRun} {a : SpawnStep} {ending : Ending}
    (hinv : Inv s) (h : step s a = some s') (hreturned : s'.pc = .returned ending) :
    LeftNothing s' ↔ Settled s a := by
  constructor
  · intro hleft
    have hsame : s'.procs = s.procs → ∀ p ∈ s.procs, p ≠ .running := by
      intro hprocs p hp
      exact hleft.ended p (hprocs ▸ hp)
    cases a with
    | find found =>
        cases found with
        | true => exact trivial
        | false =>
            refine hsame ?_
            cases hpc : s.pc with
            | finding stages =>
                simp only [step, hpc] at h
                cases stages with
                | nil => cases h; rfl
                | cons stage stages => cases h; rfl
            | _ => simp only [step, hpc, reduceCtorEq] at h
    | popen ok =>
        cases ok with
        | true => exact trivial
        | false =>
            refine hsame ?_
            cases hpc : s.pc with
            | spawning stages =>
                simp only [step, hpc] at h
                cases stages with
                | nil => cases h
                | cons stage stages => cases h; rfl
            | _ => simp only [step, hpc, reduceCtorEq] at h
    | _ => exact trivial
  · exact fun hok => leftNothing_of_inv (inv_step hinv hok h) hreturned

/-- **A pipeline that fails** leaves nothing running, as long as whatever
has been spawned has ended when a stage is not found or not spawned; and
if it has not, something is left. -/
theorem nothing_left_running {bounded : Bool} {stages : List (List Word)} {s : PipelineRun}
    (h : Reach step Settled (start bounded stages) s) :
    (∀ ending, s.pc = .returned ending → LeftNothing s)
    ∧ ∀ a s' ending, step s a = some s' → s'.pc = .returned ending →
        (LeftNothing s' ↔ Settled s a) := by
  have hinv : Inv s := h.invariant Inv rfl fun s a s' hs hok hstep => inv_step hs hok hstep
  exact ⟨fun ending hpc => leftNothing_of_inv hinv hpc,
    fun a s' ending hstep hreturned => leftNothing_return_iff hinv hstep hreturned⟩

/-! ## `cat | nothere` -/

def samplePipeline : List (List Word) := [["cat".toList], ["nothere".toList]]

/-- The first stage waits for its input when the second is not found. -/
theorem second_stage_not_found : ∃ s, Reach step Free (start false samplePipeline) s
    ∧ s.pc = .returned (.notFound "nothere".toList) ∧ s.procs = [.running] ∧ s.registered = []
    ∧ ¬LeftNothing s := by
  have hrun := Reach.of_replay .start (show replay step Free
    (start false samplePipeline) [.openInput true, .find true, .popen true, .find false]
      = some ⟨false, .returned (.notFound "nothere".toList), [.running], []⟩ from rfl)
  exact ⟨_, hrun, rfl, rfl, rfl, fun h => h.ended .running List.mem_cons_self rfl⟩

/-- With a timeout both stages are killed. -/
theorem timeout_leaves_nothing : ∃ s, Reach step Settled (start true samplePipeline) s
    ∧ s.pc = .returned .timedOut ∧ s.procs = [.killed, .killed] ∧ LeftNothing s := by
  have hrun := Reach.of_replay .start (show replay step Settled (start true samplePipeline)
    [.openInput true, .find true, .popen true, .find true, .popen true, .find true, .timeout]
      = some ⟨true, .returned .timedOut, [.killed, .killed], []⟩ from rfl)
  exact ⟨_, hrun, rfl, rfl, (nothing_left_running hrun).1 _ rfl⟩

end PipelineRun

end Zmux
