import Mathlib.Logic.Function.Basic
import Zmux.InFlight
import Zmux.PtyEmit
import Zmux.Screen
import Zmux.TabManager

/-!
# Emits during a switch

`switch` makes its target active under the lock, and then, without it,
broadcasts the reset, reads the target's scrollback and broadcasts that.
Meanwhile sessions emit: a chunk is appended to the scrollback of its
session, then the callback tests whether the session is active, then it
broadcasts. Chunks that were appended and not yet broadcast or dropped
are kept in the order they were appended.

Every byte on the screen carries the session it was emitted by, so that
one equation says it all: after the switch the screen is the target's
scrollback. `Clean` is the condition under which it is: no step of an
emit falls into the wrong gap of the switch.
-/

namespace Zmux

/-- A chunk between its append and its broadcast. -/
structure Emission where
  session : SessionId
  data : List UInt8
  /-- The session was active when the callback tested it. -/
  approved : Bool
deriving DecidableEq

inductive SwitchPc where
  | before
  | reset
  | read
  | replay (scrollback : List UInt8)
  | done
deriving DecidableEq

structure Switching where
  active : SessionId
  scrollback : SessionId → List UInt8
  pending : List Emission
  log : List (Event (SessionId × UInt8))
  pc : SwitchPc

inductive SwitchStep where
  | append (session : SessionId) (data : List UInt8)
  | test (k : Nat)
  | send (k : Nat)
  | switch

/-- The bytes as broadcast for a session. -/
def emittedBy (session : SessionId) (data : List UInt8) : List (SessionId × UInt8) :=
  data.map fun b => (session, b)

theorem emittedBy_append (session : SessionId) (a b : List UInt8) :
    emittedBy session (a ++ b) = emittedBy session a ++ emittedBy session b :=
  List.map_append

namespace Switching

def start (current : SessionId) (scrollback : SessionId → List UInt8) : Switching where
  active := current
  scrollback := scrollback
  pending := []
  log := []
  pc := .before

variable (maxSize : Nat) (target : SessionId)

/-- The next step of `switch`, which returns at once if the target is
active already. -/
def advance (s : Switching) : Option Switching :=
  match s.pc with
  | .before =>
    if s.active = target then none else some { s with active := target, pc := .reset }
  | .reset => some { s with log := s.log ++ [.reset], pc := .read }
  | .read =>
    let scrollback := s.scrollback target
    some { s with pc := if scrollback.isEmpty then .done else .replay scrollback }
  | .replay scrollback =>
    some { s with log := s.log ++ [.output (emittedBy target scrollback)], pc := .done }
  | .done => none

def step (s : Switching) : SwitchStep → Option Switching
  | .append session data =>
    some { s with
      scrollback := Function.update s.scrollback session
        (recordScrollback maxSize (s.scrollback session) data)
      pending := s.pending ++ [⟨session, data, false⟩] }
  | .test k =>
    match s.pending[k]? with
    | some ⟨session, data, false⟩ =>
      if s.active = session then
        some { s with pending := s.pending.set k ⟨session, data, true⟩ }
      else some { s with pending := s.pending.eraseIdx k }
    | _ => none
  | .send k =>
    match s.pending[k]? with
    | some ⟨session, data, true⟩ =>
      some { s with
        log := s.log ++ [.output (emittedBy session data)]
        pending := s.pending.eraseIdx k }
    | _ => none
  | .switch => s.advance target

/-- The chunk is one of the target's. -/
def ofTarget (e : Emission) : Bool := e.session = target

/-- An append to the target's scrollback after the switch has read it
fits. -/
def Fits (s : Switching) (session : SessionId) (data : List UInt8) : SwitchPc → Prop
  | .replay _ | .done => session = target →
      (s.scrollback target).length + data.length ≤ maxSize
  | _ => True

/-- A chunk of the target is not broadcast between the reset and the
replay, and after the replay the chunks are broadcast in the order they
were appended. -/
def InTurn (s : Switching) (k : Nat) : SwitchPc → Prop
  | .read | .replay _ => ∀ e ∈ s.pending[k]?, e.session ≠ target
  | .done => ∀ e ∈ s.pending.take k, e.session ≠ target
  | _ => True

/-- At the reset no other session is about to broadcast, and at the read
no chunk of the target is under way. -/
def Ready (s : Switching) : SwitchPc → Prop
  | .reset => ∀ e ∈ s.pending, e.session ≠ target → e.approved = false
  | .read => ∀ e ∈ s.pending, e.session ≠ target
  | _ => True

def Clean (s : Switching) : SwitchStep → Prop
  | .append session data => Fits maxSize target s session data s.pc
  | .test _ => True
  | .send k => InTurn target s k s.pc
  | .switch => Ready target s s.pc

instance (s : Switching) (session : SessionId) (data : List UInt8) (pc : SwitchPc) :
    Decidable (Fits maxSize target s session data pc) :=
  match pc with
  | .replay _ | .done => inferInstanceAs (Decidable (session = target →
      (s.scrollback target).length + data.length ≤ maxSize))
  | .before | .reset | .read => instDecidableTrue

instance (s : Switching) (k : Nat) (pc : SwitchPc) : Decidable (InTurn target s k pc) :=
  match pc with
  | .read | .replay _ => inferInstanceAs (Decidable (∀ e ∈ s.pending[k]?, e.session ≠ target))
  | .done => inferInstanceAs (Decidable (∀ e ∈ s.pending.take k, e.session ≠ target))
  | .before | .reset => instDecidableTrue

instance (s : Switching) (pc : SwitchPc) : Decidable (Ready target s pc) :=
  match pc with
  | .reset => inferInstanceAs
      (Decidable (∀ e ∈ s.pending, e.session ≠ target → e.approved = false))
  | .read => inferInstanceAs (Decidable (∀ e ∈ s.pending, e.session ≠ target))
  | .before | .replay _ | .done => instDecidableTrue

instance (s : Switching) (a : SwitchStep) : Decidable (Clean maxSize target s a) :=
  match a with
  | .append session data => inferInstanceAs
      (Decidable (Fits maxSize target s session data s.pc))
  | .test _ => instDecidableTrue
  | .send k => inferInstanceAs (Decidable (InTurn target s k s.pc))
  | .switch => inferInstanceAs (Decidable (Ready target s s.pc))

/-! ## The invariant -/

/-- What is on the screen, and what the chunks under way will add. -/
def Shows (s : Switching) : SwitchPc → Prop
  | .before | .reset => True
  | .read => screen s.log = []
  | .replay scrollback => screen s.log = []
      ∧ s.scrollback target = scrollback ++ owed Emission.data (ofTarget target) s.pending
  | .done => emittedBy target (s.scrollback target) = screen s.log
      ++ emittedBy target (owed Emission.data (ofTarget target) s.pending)

/-- The reset has been broadcast. -/
def Wiped : SwitchPc → Prop
  | .before | .reset => False
  | _ => True

structure Isolated (s : Switching) : Prop where
  active : s.pc ≠ .before → s.active = target
  foreign : Wiped s.pc → ∀ e ∈ s.pending, e.session ≠ target → e.approved = false
  shows : Shows target s s.pc

variable {maxSize target} {s s' : Switching}

/-- A chunk that is dropped or approved changes nothing on the screen. -/
theorem Shows.keep {pc : SwitchPc} {pending : List Emission} (h : Shows target s pc)
    (howed : Wiped pc → owed Emission.data (ofTarget target) pending
      = owed Emission.data (ofTarget target) s.pending) :
    Shows target { s with pending := pending } pc := by
  cases pc with
  | before => trivial
  | reset => trivial
  | read => exact h
  | replay scrollback => exact ⟨h.1, by rw [howed trivial]; exact h.2⟩
  | done =>
      show _ = _
      rw [howed trivial]
      exact h

theorem isolated_append (h : Isolated target s) {session : SessionId} {data : List UInt8}
    (hok : Fits maxSize target s session data s.pc) :
    Isolated target { s with
      scrollback := Function.update s.scrollback session
        (recordScrollback maxSize (s.scrollback session) data)
      pending := s.pending ++ [⟨session, data, false⟩] } := by
  refine ⟨h.active, fun hwiped e he => ?_, ?_⟩
  · rcases List.mem_append.mp he with he | he
    · exact h.foreign hwiped e he
    · rw [List.mem_singleton.mp he]
      exact fun _ => rfl
  have hgrow : (session = target → (s.scrollback target).length + data.length ≤ maxSize) →
      Function.update s.scrollback session
          (recordScrollback maxSize (s.scrollback session) data) target
        = s.scrollback target ++ (if ofTarget target ⟨session, data, false⟩ then data else []) := by
    intro hfits
    by_cases hsession : session = target
    · subst hsession
      rw [Function.update_self, recordScrollback_eq (hfits rfl)]
      simp [ofTarget]
    · rw [Function.update_of_ne (Ne.symm hsession)]
      simp [ofTarget, hsession]
  have hshows := h.shows
  dsimp only
  cases hpc : s.pc with
  | before => trivial
  | reset => trivial
  | read => rw [hpc] at hshows; exact hshows
  | replay scrollback =>
      rw [hpc] at hshows hok
      refine ⟨hshows.1, ?_⟩
      dsimp only
      rw [owed_snoc, hgrow hok, hshows.2, List.append_assoc]
  | done =>
      rw [hpc] at hshows hok
      have hshows' : emittedBy target (s.scrollback target) = screen s.log
          ++ emittedBy target (owed Emission.data (ofTarget target) s.pending) := hshows
      show emittedBy target (Function.update s.scrollback session _ target) = screen s.log ++ _
      rw [owed_snoc, hgrow hok, emittedBy_append, hshows', emittedBy_append, List.append_assoc]

theorem isolated_test (h : Isolated target s) {k : Nat}
    (hs : step maxSize target s (.test k) = some s') : Isolated target s' := by
  rw [step] at hs
  split at hs
  · rename_i session data hk
    split at hs
    · rename_i hactive
      obtain rfl := Option.some.inj hs
      refine ⟨h.active, fun hwiped e he hne => ?_, h.shows.keep fun _ => owed_set hk rfl rfl⟩
      rcases List.mem_or_eq_of_mem_set he with he | rfl
      · exact h.foreign hwiped e he hne
      · refine absurd ?_ hne
        rw [← hactive]
        refine h.active ?_
        intro hbefore
        rw [hbefore] at hwiped
        exact hwiped
    · rename_i hactive
      obtain rfl := Option.some.inj hs
      refine ⟨h.active, fun hwiped e he => h.foreign hwiped e (List.mem_of_mem_eraseIdx he),
        h.shows.keep fun hwiped => owed_erase_other hk ?_⟩
      have htarget : s.active = target := by
        refine h.active ?_
        intro hbefore
        rw [hbefore] at hwiped
        exact hwiped
      rw [htarget] at hactive
      simp [ofTarget, Ne.symm hactive]
  · cases hs

theorem isolated_send (h : Isolated target s) {k : Nat} (hok : InTurn target s k s.pc)
    (hs : step maxSize target s (.send k) = some s') : Isolated target s' := by
  rw [step] at hs
  split at hs
  · rename_i session data hk
    obtain rfl := Option.some.inj hs
    refine ⟨h.active, fun hwiped e he => h.foreign hwiped e (List.mem_of_mem_eraseIdx he), ?_⟩
    -- after the reset only the target broadcasts
    have hown : Wiped s.pc → session = target := by
      intro hwiped
      by_contra hne
      have happroved := h.foreign hwiped _ (List.mem_of_getElem? hk) hne
      cases happroved
    have hshows := h.shows
    dsimp only
    cases hpc : s.pc with
    | before => trivial
    | reset => trivial
    | read =>
        rw [hpc] at hok hown
        exact absurd (hown trivial) (hok _ hk)
    | replay scrollback =>
        rw [hpc] at hok hown
        exact absurd (hown trivial) (hok _ hk)
    | done =>
        rw [hpc] at hok hown hshows
        have hsession := hown trivial
        subst hsession
        have hfirst : ∀ e ∈ s.pending.take k, ofTarget session e = false := fun e he =>
          decide_eq_false (hok e he)
        have hshows' : emittedBy session (s.scrollback session) = screen s.log
            ++ emittedBy session (owed Emission.data (ofTarget session) s.pending) := hshows
        show emittedBy session (s.scrollback session) = screen (s.log ++ [_]) ++ _
        rw [owed_erase_first hk (by simp [ofTarget]) hfirst, emittedBy_append,
          ← List.append_assoc] at hshows'
        rw [screen_snoc, paint]
        exact hshows'
  · cases hs

theorem isolated_switch (h : Isolated target s) (hok : Ready target s s.pc)
    (hs : s.advance target = some s') : Isolated target s' := by
  have hshows := h.shows
  have hactive := h.active
  rw [advance] at hs
  cases hpc : s.pc with
  | before =>
      rw [hpc] at hs
      dsimp only at hs
      split at hs
      · cases hs
      · obtain rfl := Option.some.inj hs
        exact ⟨fun _ => rfl, fun hwiped => hwiped.elim, trivial⟩
  | reset =>
      rw [hpc] at hs hok hactive
      obtain rfl := Option.some.inj hs
      exact ⟨fun _ => hactive nofun, fun _ => hok, by simp [Shows, paint]⟩
  | read =>
      rw [hpc] at hs hok hactive hshows
      obtain rfl := Option.some.inj hs
      have howed : owed Emission.data (ofTarget target) s.pending = [] :=
        owed_eq_nil fun e he => decide_eq_false (hok e he)
      have hblank : screen s.log = [] := hshows
      refine ⟨fun _ => hactive nofun, fun _ e he hne => ?_, ?_⟩
      · exact h.foreign (by rw [hpc]; trivial) e he hne
      · dsimp only
        split
        · rename_i hempty
          rw [List.isEmpty_iff] at hempty
          simp [Shows, howed, hblank, hempty, emittedBy]
        · exact ⟨hblank, by simp [howed]⟩
  | replay scrollback =>
      rw [hpc] at hs hactive hshows
      obtain rfl := Option.some.inj hs
      obtain ⟨hblank, hscroll⟩ := hshows
      refine ⟨fun _ => hactive nofun, fun _ e he hne => ?_, ?_⟩
      · exact h.foreign (by rw [hpc]; trivial) e he hne
      · show emittedBy target (s.scrollback target) = screen (s.log ++ [_]) ++ _
        rw [screen_snoc, hblank, hscroll, emittedBy_append]
        rfl
  | done => rw [hpc] at hs; cases hs

/-! ## Every run -/

/-- When the switch has completed and no emit is under way, the screen is
the target's scrollback. -/
def ShowsTarget (target : SessionId) (s : Switching) : Prop :=
  s.pc = .done → s.pending = [] → screen s.log = emittedBy target (s.scrollback target)

theorem isolated_start (current : SessionId) (scrollback : SessionId → List UInt8) :
    Isolated target (start current scrollback) :=
  ⟨fun h => absurd rfl h, fun h => h.elim, trivial⟩

theorem isolated_step (a : SwitchStep) (h : Isolated target s) (hok : Clean maxSize target s a)
    (hs : step maxSize target s a = some s') : Isolated target s' := by
  cases a with
  | append session data =>
      obtain rfl := Option.some.inj hs
      exact isolated_append h hok
  | test k => exact isolated_test h hs
  | send k => exact isolated_send h hok hs
  | switch => exact isolated_switch h hok hs

/-- **Output isolation during a switch.** -/
theorem switch_shows_target {current : SessionId} {scrollback : SessionId → List UInt8}
    (h : Reach (step maxSize target) (Clean maxSize target) (start current scrollback) s) :
    ShowsTarget target s := by
  have hisolated := h.invariant (Isolated target) (isolated_start current scrollback)
    fun _ a _ hs hok hnext => isolated_step a hs hok hnext
  intro hdone hpending
  have hshows := hisolated.shows
  rw [hdone] at hshows
  have hshows' : emittedBy target (s.scrollback target) = screen s.log
      ++ emittedBy target (owed Emission.data (ofTarget target) s.pending) := hshows
  rw [hshows', hpending]
  simp [emittedBy]

/-! ## An emit across the switch -/

instance (s : Switching) : Decidable (ShowsTarget target s) :=
  inferInstanceAs (Decidable (s.pc = .done → s.pending = [] → _ = _))

/-- Session 1 is found active, then the switch to session 2 broadcasts the
reset, and then session 1 broadcasts. -/
theorem emit_crosses_switch :
    ∃ s, Reach (step (2 ^ 20) 2) Free (start 1 fun _ => []) s ∧ ¬ShowsTarget 2 s := by
  obtain ⟨s, hs, hbad⟩ := reach_of_replay (p := fun s : Switching => decide ¬ShowsTarget 2 s)
    (show (replay (step (2 ^ 20) 2) Free (start 1 fun _ => [])
      [.append 1 [0x41], .test 0, .switch, .switch, .send 0, .switch]).map _ = some true by
      decide)
  exact ⟨s, hs, of_decide_eq_true hbad⟩

/-- Emits of both sessions around a switch, and one after it. -/
theorem clean_switch_shows_target :
    ∃ s : Switching, s.pc = .done ∧ s.pending = []
      ∧ screen s.log = emittedBy 2 (s.scrollback 2) ∧ s.scrollback 2 = [0x43, 0x42] := by
  obtain ⟨s, hs, hend⟩ := reach_of_replay
    (p := fun s : Switching => decide (s.pc = .done ∧ s.pending = []
      ∧ s.scrollback 2 = [0x43, 0x42]))
    (show (replay (step (2 ^ 20) 2) (Clean (2 ^ 20) 2)
      (start 1 fun i => if i = 2 then [0x43] else [])
      [.append 1 [0x41], .test 0, .switch, .send 0, .append 1 [0x44], .switch, .switch,
        .test 0, .append 2 [0x42], .switch, .test 0, .send 0]).map _ = some true by decide)
  obtain ⟨hdone, hpending, hscroll⟩ := of_decide_eq_true hend
  exact ⟨s, hdone, hpending, switch_shows_target hs hdone hpending, hscroll⟩

end Switching

end Zmux
