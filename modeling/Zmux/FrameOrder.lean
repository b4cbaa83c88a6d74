import Mathlib.Data.List.Infix
import Zmux.Runs

/-!
# The order of frames on the page

`ws.onmessage` of `terminal.html` reads each binary frame with an
`arrayBuffer()` of its own, and what the read delivers is queued for xterm
(`writeTerminalOutput`). An animation frame hands the queue to
`term.write` (`flushTermWrite`). A frame with the reset sequence of the
session manager first throws the queue away and clears xterm's buffer
(`clearPreviousSessionBuffer`).

The reads may finish in any order, and the queue is in the order in which
they do. So the frames are written in the order of their arrival, and
nothing is written behind a later reset, as long as it is always the
oldest read that finishes (`frames_in_order`).

Only binary frames are modelled: the text frames of the server are
control messages, which write nothing.
-/

namespace Zmux

/-- The payload of a binary frame, with its place among the arrivals. -/
abbrev Frame := List UInt8 × ℕ

/-- What xterm is given. -/
inductive TermEvent where
  /-- `term.write`; the chunks of a batch are merged into one call. -/
  | wrote (frame : Frame)
  /-- `term.clear` for the reset in the frame of this place. -/
  | cleared (place : ℕ)
deriving DecidableEq

def TermEvent.frame? : TermEvent → Option Frame
  | .wrote frame => some frame
  | .cleared _ => none

structure Output where
  /-- The payloads of all frames that have arrived. -/
  frames : List (List UInt8)
  /-- The frames whose `arrayBuffer()` is pending. -/
  reading : List Frame
  writeQueue : List Frame
  writeFlushPending : Bool
  shown : List TermEvent

inductive OutputStep where
  | message (payload : List UInt8)
  /-- The `arrayBuffer()` of the `k`-th pending read is fulfilled. -/
  | fulfilled (k : ℕ)
  | animationFrame

namespace Output

/-- `SESSION_RESET_SEQUENCE`. -/
def sessionReset : List UInt8 :=
  "\x1b[?1049l\x1b[?47l\x1b[?1047l\x1b[2J\x1b[H".toList.map fun c => c.val.toUInt8

/-- `isSessionScreenReset` of the bytes of a frame. -/
def isSessionScreenReset (data : List UInt8) : Bool := decide (sessionReset <:+: data)

def start : Output where
  frames := []
  reading := []
  writeQueue := []
  writeFlushPending := false
  shown := []

def clearPreviousSessionBuffer (s : Output) (place : ℕ) : Output :=
  { s with writeQueue := [], shown := s.shown ++ [.cleared place] }

def push (s : Output) (frame : Frame) : Output :=
  { s with
    writeQueue := if frame.1 = [] then s.writeQueue else s.writeQueue ++ [frame]
    writeFlushPending := true }

def writeTerminalOutput (s : Output) (frame : Frame) : Output :=
  if isSessionScreenReset frame.1 then (s.clearPreviousSessionBuffer frame.2).push frame
  else s.push frame

def flushTermWrite (s : Output) : Output :=
  { s with
    writeFlushPending := false
    writeQueue := []
    shown := s.shown ++ s.writeQueue.map .wrote }

def step (s : Output) : OutputStep → Option Output
  | .message payload => some { s with
      frames := s.frames ++ [payload]
      reading := s.reading ++ [(payload, s.frames.length)] }
  | .fulfilled k =>
    match s.reading[k]? with
    | none => none
    | some frame => some ({ s with reading := s.reading.eraseIdx k }.writeTerminalOutput frame)
  | .animationFrame => if s.writeFlushPending then some s.flushTermWrite else none

/-- It is the oldest read that finishes. -/
def Oldest (_ : Output) : OutputStep → Prop
  | .fulfilled k => k = 0
  | .message _ | .animationFrame => True

instance (s : Output) (a : OutputStep) : Decidable (Oldest s a) :=
  match a with
  | .fulfilled k => inferInstanceAs (Decidable (k = 0))
  | .message _ | .animationFrame => instDecidableTrue

/-! ## What is promised -/

/-- The frames handed to `term.write`. -/
def written (s : Output) : List Frame := s.shown.filterMap TermEvent.frame?

/-- `later` is no frame that arrived before the reset `e` stands for. -/
def NotBefore (e later : TermEvent) : Prop :=
  match e, later with
  | .cleared place, .wrote frame => place ≤ frame.2
  | _, _ => True

/-- Apart from what a reset discards, the frames are written in the order
of their arrival, and none is written after a later frame's reset. -/
structure InOrder (s : Output) : Prop where
  order : s.written.Sublist s.frames.zipIdx
  /-- What is neither pending nor queued was empty, or came before a reset. -/
  whole : ∀ frame ∈ s.frames.zipIdx, frame ∈ s.written ∨ frame ∈ s.writeQueue
    ∨ frame ∈ s.reading ∨ frame.1 = [] ∨ ∃ place, TermEvent.cleared place ∈ s.shown ∧ frame.2 < place
  reset : s.shown.Pairwise NotBefore

/-! ## The invariant -/

/-- The pending frames are the last that arrived, and what is written and
queued comes from those before. -/
structure Lined (s : Output) (before : List Frame) : Prop where
  arrived : s.frames.zipIdx = before ++ s.reading
  sublist : (s.written ++ s.writeQueue).Sublist before
  whole : ∀ frame ∈ before, frame ∈ s.written ∨ frame ∈ s.writeQueue ∨ frame.1 = []
    ∨ ∃ place, TermEvent.cleared place ∈ s.shown ∧ frame.2 < place
  reset : s.shown.Pairwise NotBefore
  fresh : ∀ place, TermEvent.cleared place ∈ s.shown → ∀ frame ∈ s.writeQueue ++ s.reading,
    place ≤ frame.2
  past : ∀ place, TermEvent.cleared place ∈ s.shown → place < s.frames.length

variable {s s' : Output} {before : List Frame}

theorem Lined.inOrder (h : Lined s before) : InOrder s where
  order := by
    rw [h.arrived]
    exact ((List.sublist_append_left ..).trans h.sublist).trans (List.sublist_append_left ..)
  whole frame hframe := by
    rw [h.arrived] at hframe
    rcases List.mem_append.mp hframe with hbefore | hreading
    · rcases h.whole frame hbefore with hwritten | hqueue | hgone
      · exact Or.inl hwritten
      · exact Or.inr (Or.inl hqueue)
      · exact Or.inr (Or.inr (Or.inr hgone))
    · exact Or.inr (Or.inr (Or.inl hreading))
  reset := h.reset

theorem lined_start : Lined start [] where
  arrived := rfl
  sublist := .slnil
  whole _ hframe := (List.not_mem_nil hframe).elim
  reset := .nil
  fresh _ hplace := (List.not_mem_nil hplace).elim
  past _ hplace := (List.not_mem_nil hplace).elim

theorem lined_message (h : Lined s before) (payload : List UInt8) :
    Lined { s with
      frames := s.frames ++ [payload]
      reading := s.reading ++ [(payload, s.frames.length)] } before where
  arrived := by
    rw [List.zipIdx_append, h.arrived, List.append_assoc, Nat.zero_add]
    rfl
  sublist := h.sublist
  whole := h.whole
  reset := h.reset
  fresh place hplace frame hframe := by
    rw [← List.append_assoc] at hframe
    rcases List.mem_append.mp hframe with hold | hnew
    · exact h.fresh place hplace frame hold
    · rw [List.mem_singleton.mp hnew]
      exact (h.past place hplace).le
  past place hplace := by
    have hlt := h.past place hplace
    rw [List.length_append]
    exact Nat.lt_add_right _ hlt

/-- The places of arrival grow along the frames. -/
theorem places_lt (h : Lined s before) {frame : Frame} {rest : List Frame}
    (hreading : s.reading = frame :: rest) :
    (∀ old ∈ before, old.2 < frame.2) ∧ (∀ new ∈ rest, frame.2 < new.2)
      ∧ frame.2 < s.frames.length := by
  have hsorted : (s.frames.zipIdx.map Prod.snd).Pairwise (· < ·) := by
    rw [List.zipIdx_map_snd]
    exact List.pairwise_lt_range'
  rw [h.arrived, hreading, List.map_append, List.pairwise_append] at hsorted
  obtain ⟨-, hpending, hacross⟩ := hsorted
  rw [List.map_cons, List.pairwise_cons] at hpending
  have hmem : frame ∈ s.frames.zipIdx := by
    rw [h.arrived, hreading]
    exact List.mem_append_right _ (List.mem_cons_self ..)
  refine ⟨fun old hold => ?_, fun new hnew => ?_, ?_⟩
  · exact hacross _ (List.mem_map_of_mem hold) _ (List.mem_map_of_mem (List.mem_cons_self ..))
  · exact hpending.1 _ (List.mem_map_of_mem hnew)
  · exact List.snd_lt_of_mem_zipIdx hmem

theorem written_clear (s : Output) (place : ℕ) :
    (s.clearPreviousSessionBuffer place).written = s.written := by
  simp only [written, clearPreviousSessionBuffer, List.filterMap_append]
  exact List.append_nil _

/-- The reset of the oldest pending frame. -/
theorem lined_clear (h : Lined s before) {frame : Frame} {rest : List Frame}
    (hreading : s.reading = frame :: rest) :
    Lined (s.clearPreviousSessionBuffer frame.2) before := by
  obtain ⟨hold, hnew, hlt⟩ := places_lt h hreading
  have hcleared : ∀ place, TermEvent.cleared place ∈ s.shown ++ [.cleared frame.2] →
      TermEvent.cleared place ∈ s.shown ∨ place = frame.2 := by
    intro place hplace
    rcases List.mem_append.mp hplace with hplace | hplace
    · exact Or.inl hplace
    · exact Or.inr (TermEvent.cleared.inj (List.mem_singleton.mp hplace))
  refine ⟨h.arrived, ?_, fun f hf => ?_, ?_, fun place hplace f hf => ?_, fun place hplace => ?_⟩
  · rw [written_clear]
    exact (List.append_nil s.written).symm ▸ (List.sublist_append_left ..).trans h.sublist
  · exact Or.inr (Or.inr (Or.inr ⟨frame.2, List.mem_append_right _ (List.mem_singleton_self _),
      hold f hf⟩))
  · refine List.pairwise_append.mpr ⟨h.reset, List.pairwise_singleton .., fun e _ e' he' => ?_⟩
    rw [List.mem_singleton.mp he']
    cases e <;> trivial
  · have hf : f ∈ s.reading := hf
    rcases hcleared place hplace with hplace | rfl
    · exact h.fresh place hplace f (List.mem_append_right _ hf)
    · rw [hreading] at hf
      rcases List.mem_cons.mp hf with rfl | hf
      · exact Nat.le_refl _
      · exact (hnew f hf).le
  · rcases hcleared place hplace with hplace | rfl
    · exact h.past place hplace
    · exact hlt

/-- The oldest pending frame is queued. -/
theorem lined_push (h : Lined s before) {frame : Frame} {rest : List Frame}
    (hreading : s.reading = frame :: rest) :
    Lined ({ s with reading := rest }.push frame) (before ++ [frame]) := by
  have hqueue : ∀ f, f ∈ ({ s with reading := rest }.push frame).writeQueue →
      f ∈ s.writeQueue ∨ f = frame := by
    intro f hf
    rw [push] at hf
    dsimp only at hf
    split at hf
    · exact Or.inl hf
    · rcases List.mem_append.mp hf with hf | hf
      · exact Or.inl hf
      · exact Or.inr (List.mem_singleton.mp hf)
  refine ⟨?_, ?_, fun f hf => ?_, h.reset, fun place hplace f hf => ?_, h.past⟩
  · rw [List.append_assoc]
    exact h.arrived.trans (congrArg (before ++ ·) hreading)
  · show (s.written ++ _).Sublist (before ++ [frame])
    rw [push]
    dsimp only
    split
    · exact h.sublist.trans (List.sublist_append_left ..)
    · rw [← List.append_assoc]
      exact h.sublist.append (List.Sublist.refl _)
  · rcases List.mem_append.mp hf with hf | hf
    · rcases h.whole f hf with hwritten | hqueued | hgone
      · exact Or.inl hwritten
      · refine Or.inr (Or.inl ?_)
        rw [push]
        dsimp only
        split
        · exact hqueued
        · exact List.mem_append_left _ hqueued
      · exact Or.inr (Or.inr hgone)
    · obtain rfl := List.mem_singleton.mp hf
      by_cases hempty : f.1 = []
      · exact Or.inr (Or.inr (Or.inl hempty))
      · refine Or.inr (Or.inl ?_)
        rw [push]
        dsimp only
        rw [if_neg hempty]
        exact List.mem_append_right _ (List.mem_singleton_self _)
  · have hold := h.fresh place hplace
    rcases List.mem_append.mp hf with hf | hf
    · rcases hqueue f hf with hf | rfl
      · exact hold f (List.mem_append_left _ hf)
      · exact hold f (List.mem_append_right _ (hreading ▸ List.mem_cons_self ..))
    · exact hold f (List.mem_append_right _ (hreading ▸ List.mem_cons_of_mem _ hf))

theorem lined_flush (h : Lined s before) : Lined s.flushTermWrite before := by
  have hwritten : s.flushTermWrite.written = s.written ++ s.writeQueue := by
    have hqueue : (s.writeQueue.map TermEvent.wrote).filterMap TermEvent.frame? = s.writeQueue := by
      rw [List.filterMap_map]
      exact List.filterMap_some
    rw [written, flushTermWrite, List.filterMap_append, hqueue]
    rfl
  have hcleared : ∀ place, TermEvent.cleared place ∈ s.flushTermWrite.shown →
      TermEvent.cleared place ∈ s.shown := by
    intro place hplace
    rcases List.mem_append.mp hplace with hplace | hplace
    · exact hplace
    · obtain ⟨f, -, hf⟩ := List.mem_map.mp hplace
      cases hf
  refine ⟨h.arrived, ?_, fun f hf => ?_, ?_, fun place hplace f hf => ?_, fun place hplace => ?_⟩
  · rw [hwritten]
    exact (List.append_nil _).symm ▸ h.sublist
  · rw [hwritten]
    rcases h.whole f hf with hwritten | hqueued | hempty | ⟨place, hplace, hlt⟩
    · exact Or.inl (List.mem_append_left _ hwritten)
    · exact Or.inl (List.mem_append_right _ hqueued)
    · exact Or.inr (Or.inr (Or.inl hempty))
    · exact Or.inr (Or.inr (Or.inr ⟨place, List.mem_append_left _ hplace, hlt⟩))
  · refine List.pairwise_append.mpr ⟨h.reset, ?_, fun e he e' he' => ?_⟩
    · exact List.pairwise_map.mpr (List.pairwise_iff_forall_sublist.mpr fun _ => trivial)
    · obtain ⟨f, hf, rfl⟩ := List.mem_map.mp he'
      cases e with
      | wrote _ => trivial
      | cleared place => exact h.fresh place he f (List.mem_append_left _ hf)
  · exact h.fresh place (hcleared place hplace) f (List.mem_append_right _ hf)
  · exact h.past place (hcleared place hplace)

theorem lined_step (a : OutputStep) (h : Lined s before) (hok : Oldest s a)
    (hs : step s a = some s') : ∃ before', Lined s' before' := by
  cases a with
  | message payload =>
      obtain rfl := Option.some.inj hs
      exact ⟨before, lined_message h payload⟩
  | fulfilled k =>
      obtain rfl : k = 0 := hok
      cases hreading : s.reading with
      | nil =>
          rw [step, hreading] at hs
          cases hs
      | cons frame rest =>
          rw [step, hreading] at hs
          obtain rfl := Option.some.inj hs
          refine ⟨before ++ [frame], ?_⟩
          rw [writeTerminalOutput]
          split
          · exact lined_push (lined_clear h hreading) hreading
          · exact lined_push h hreading
  | animationFrame =>
      rw [step] at hs
      split at hs
      · obtain rfl := Option.some.inj hs
        exact ⟨before, lined_flush h⟩
      · cases hs

/-! ## Every run -/

/-- **Frame order**, in every run in which the reads finish in the order in
which they began. -/
theorem frames_in_order (h : Reach step Oldest start s) : InOrder s := by
  obtain ⟨before, hlined⟩ := h.invariant (fun s => ∃ before, Lined s before) ⟨[], lined_start⟩
    fun _ a _ hs hok hnext => hs.elim fun _ hlined => lined_step a hlined hok hnext
  exact hlined.inOrder

/-! ## Two reads that overtake -/

instance (e later : TermEvent) : Decidable (NotBefore e later) :=
  match e, later with
  | .cleared place, .wrote frame => inferInstanceAs (Decidable (place ≤ frame.2))
  | .wrote _, _ | .cleared _, .cleared _ => instDecidableTrue

/-- `A` and `B` are written the other way round; and `A`, read before the
reset that follows it has been, is written after the reset. -/
theorem overtaking_reads_reorder :
    (∃ s, Reach step Free start s ∧ s.written = [([0x42], 1), ([0x41], 0)] ∧ ¬InOrder s) ∧
    ∃ s, Reach step Free start s
      ∧ s.shown = [.cleared 1, .wrote (sessionReset, 1), .wrote ([0x41], 0)] ∧ ¬InOrder s := by
  constructor
  · obtain ⟨s, hs, hend⟩ := reach_of_replay
      (p := fun s : Output => decide (s.frames = [[0x41], [0x42]]
        ∧ s.written = [([0x42], 1), ([0x41], 0)]))
      (show (replay step Free start [.message [0x41], .message [0x42], .fulfilled 1, .fulfilled 0,
        .animationFrame]).map _ = some true by decide)
    obtain ⟨hframes, hwritten⟩ := of_decide_eq_true hend
    refine ⟨s, hs, hwritten, fun h => ?_⟩
    have horder := h.order
    rw [hframes, hwritten] at horder
    exact absurd horder (by decide)
  · obtain ⟨s, hs, hend⟩ := reach_of_replay
      (p := fun s : Output =>
        decide (s.shown = [.cleared 1, .wrote (sessionReset, 1), .wrote ([0x41], 0)]))
      (show (replay step Free start [.message [0x41], .message sessionReset, .fulfilled 1,
        .fulfilled 0, .animationFrame]).map _ = some true by decide)
    have hshown := of_decide_eq_true hend
    refine ⟨s, hs, hshown, fun h => ?_⟩
    have hreset := h.reset
    rw [hshown] at hreset
    exact absurd hreset (by decide)

/-- `A` is queued when the reset throws it away, and `B` is written. -/
theorem reads_in_turn_in_order : ∃ s, InOrder s ∧ s.reading = []
    ∧ s.written = [(sessionReset, 1), ([0x42], 2)] := by
  obtain ⟨s, hs, hend⟩ := reach_of_replay
    (p := fun s : Output => decide (s.reading = [] ∧ s.written = [(sessionReset, 1), ([0x42], 2)]))
    (show (replay step Oldest start [.message [0x41], .message sessionReset, .fulfilled 0,
      .message [0x42], .fulfilled 0, .fulfilled 0, .animationFrame]).map _ = some true by
      decide)
  exact ⟨s, frames_in_order hs, of_decide_eq_true hend⟩

end Output

end Zmux
