import Zmux.InFlight
import Zmux.PtyEmit
import Zmux.Runs
import Zmux.Screen

/-!
# A client connects while the session emits

`_handle_client` registers the new client, takes the scrollback of the
active session, sends the reset and then the scrollback. An emit appends
its chunk to the scrollback and broadcasts it in a later step, to the
clients that are registered then.

A chunk that is under way when the scrollback is taken is in it already
(`inSnapshot`). `Gapless` is the condition under which the client gets
every byte once: such chunks are broadcast before the reset, which erases
them, and all others after the replay, in order.
-/

namespace Zmux

/-- A chunk between its append and its broadcast. -/
structure Chunk where
  data : List UInt8
  /-- The scrollback the client is going to get has it. -/
  inSnapshot : Bool
deriving DecidableEq

inductive ConnectPc where
  | register
  | snapshot
  | reset (scrollback : List UInt8)
  | replay (scrollback : List UInt8)
  | done
deriving DecidableEq

structure Connecting where
  scrollback : List UInt8
  pending : List Chunk
  /-- What the client has received. -/
  received : List (Event UInt8)
  pc : ConnectPc

inductive ConnectStep where
  | append (data : List UInt8)
  | send (k : Nat)
  | connect

/-- The client is in `clients`. -/
def ConnectPc.registered : ConnectPc → Bool
  | .register => false
  | _ => true

namespace Connecting

def start (scrollback : List UInt8) : Connecting where
  scrollback := scrollback
  pending := []
  received := []
  pc := .register

variable (maxSize : Nat)

/-- The next step of the connection; an empty scrollback is not sent. -/
def connect (s : Connecting) : Option Connecting :=
  match s.pc with
  | .register => some { s with pc := .snapshot }
  | .snapshot => some { s with
      pending := s.pending.map fun e => { e with inSnapshot := true }
      pc := .reset s.scrollback }
  | .reset scrollback => some { s with
      received := s.received ++ [.reset]
      pc := if scrollback.isEmpty then .done else .replay scrollback }
  | .replay scrollback => some { s with
      received := s.received ++ [.output scrollback]
      pc := .done }
  | .done => none

def step (s : Connecting) : ConnectStep → Option Connecting
  | .append data => some { s with
      scrollback := recordScrollback maxSize s.scrollback data
      pending := s.pending ++ [⟨data, false⟩] }
  | .send k =>
    match s.pending[k]? with
    | none => none
    | some e => some { s with
        received := if s.pc.registered then s.received ++ [.output e.data] else s.received
        pending := s.pending.eraseIdx k }
  | .connect => s.connect

/-- What is appended after the snapshot fits. -/
def Fits (s : Connecting) (data : List UInt8) : ConnectPc → Prop
  | .register | .snapshot => True
  | _ => s.scrollback.length + data.length ≤ maxSize

/-- Between the snapshot and the reset only chunks of the snapshot are
broadcast, between the reset and the replay none, and after the replay
the oldest. -/
def InTurn (s : Connecting) (k : Nat) : ConnectPc → Prop
  | .register | .snapshot => True
  | .reset _ => ∀ e ∈ s.pending[k]?, e.inSnapshot = true
  | .replay _ => s.pending[k]? = none
  | .done => k = 0

/-- No chunk of the snapshot is under way when the reset is sent. -/
def Ready (s : Connecting) : ConnectPc → Prop
  | .reset _ => ∀ e ∈ s.pending, e.inSnapshot = false
  | _ => True

def Gapless (s : Connecting) : ConnectStep → Prop
  | .append data => Fits maxSize s data s.pc
  | .send k => InTurn s k s.pc
  | .connect => Ready s s.pc

instance (s : Connecting) (data : List UInt8) (pc : ConnectPc) :
    Decidable (Fits maxSize s data pc) :=
  match pc with
  | .register | .snapshot => instDecidableTrue
  | .reset _ | .replay _ | .done => inferInstanceAs
      (Decidable (s.scrollback.length + data.length ≤ maxSize))

instance (s : Connecting) (k : Nat) (pc : ConnectPc) : Decidable (InTurn s k pc) :=
  match pc with
  | .register | .snapshot => instDecidableTrue
  | .reset _ => inferInstanceAs (Decidable (∀ e ∈ s.pending[k]?, e.inSnapshot = true))
  | .replay _ => inferInstanceAs (Decidable (s.pending[k]? = none))
  | .done => inferInstanceAs (Decidable (k = 0))

instance (s : Connecting) (pc : ConnectPc) : Decidable (Ready s pc) :=
  match pc with
  | .reset _ => inferInstanceAs (Decidable (∀ e ∈ s.pending, e.inSnapshot = false))
  | .register | .snapshot | .replay _ | .done => instDecidableTrue

instance (s : Connecting) (a : ConnectStep) : Decidable (Gapless maxSize s a) :=
  match a with
  | .append data => inferInstanceAs (Decidable (Fits maxSize s data s.pc))
  | .send k => inferInstanceAs (Decidable (InTurn s k s.pc))
  | .connect => inferInstanceAs (Decidable (Ready s s.pc))

/-! ## The invariant -/

/-- What the chunks appended after the snapshot will add. -/
def rest (pending : List Chunk) : List UInt8 :=
  owed Chunk.data (fun e => !e.inSnapshot) pending

/-- The client has, or is going to be sent, the scrollback up to the
chunks under way. -/
def Follows (s : Connecting) : ConnectPc → Prop
  | .register | .snapshot => True
  | .reset scrollback => s.scrollback = scrollback ++ rest s.pending
  | .replay scrollback => s.scrollback = scrollback ++ rest s.pending ∧ screen s.received = []
      ∧ ∀ e ∈ s.pending, e.inSnapshot = false
  | .done => s.scrollback = screen s.received ++ rest s.pending
      ∧ ∀ e ∈ s.pending, e.inSnapshot = false

variable {maxSize} {s s' : Connecting}

theorem rest_append (pending : List Chunk) (data : List UInt8) :
    rest (pending ++ [⟨data, false⟩]) = rest pending ++ data := by
  simp only [rest, owed_snoc, Bool.not_false, if_true]

theorem follows_append (h : Follows s s.pc) {data : List UInt8}
    (hok : Fits maxSize s data s.pc) (hs : step maxSize s (.append data) = some s') :
    Follows s' s'.pc := by
  obtain rfl := Option.some.inj hs
  have hfresh : (∀ e ∈ s.pending, e.inSnapshot = false) →
      ∀ e ∈ s.pending ++ [⟨data, false⟩], e.inSnapshot = false := by
    intro hold e he
    rcases List.mem_append.mp he with he | he
    · exact hold e he
    · rw [List.mem_singleton.mp he]
  dsimp only
  cases hpc : s.pc with
  | register => trivial
  | snapshot => trivial
  | reset scrollback =>
      rw [hpc] at h hok
      have hscroll : s.scrollback = scrollback ++ rest s.pending := h
      show recordScrollback maxSize s.scrollback data = scrollback ++ rest _
      rw [rest_append, recordScrollback_eq hok, hscroll, List.append_assoc]
  | replay scrollback =>
      rw [hpc] at h hok
      obtain ⟨hscroll, hblank, hold⟩ := h
      refine ⟨?_, hblank, hfresh hold⟩
      show recordScrollback maxSize s.scrollback data = scrollback ++ rest _
      rw [rest_append, recordScrollback_eq hok, hscroll, List.append_assoc]
  | done =>
      rw [hpc] at h hok
      obtain ⟨hscroll, hold⟩ := h
      refine ⟨?_, hfresh hold⟩
      show recordScrollback maxSize s.scrollback data = screen s.received ++ rest _
      rw [rest_append, recordScrollback_eq hok, hscroll, List.append_assoc]

theorem follows_send (h : Follows s s.pc) {k : Nat} (hok : InTurn s k s.pc)
    (hs : step maxSize s (.send k) = some s') : Follows s' s'.pc := by
  rw [step] at hs
  split at hs
  · cases hs
  · rename_i e hk
    obtain rfl := Option.some.inj hs
    dsimp only
    cases hpc : s.pc with
    | register => trivial
    | snapshot => trivial
    | reset scrollback =>
        rw [hpc] at h hok
        have hscroll : s.scrollback = scrollback ++ rest s.pending := h
        have hold : e.inSnapshot = true := hok e hk
        show s.scrollback = scrollback ++ owed Chunk.data _ (s.pending.eraseIdx k)
        rw [owed_erase_other hk (by simp [hold]), hscroll]
        rfl
    | replay scrollback =>
        rw [hpc] at hok
        exact absurd (hk.symm.trans hok) nofun
    | done =>
        rw [hpc] at h hok
        obtain ⟨hscroll, hold⟩ := h
        obtain rfl : k = 0 := hok
        refine ⟨?_, fun e he => hold e (List.mem_of_mem_eraseIdx he)⟩
        have hnew : e.inSnapshot = false := hold e (List.mem_of_getElem? hk)
        show s.scrollback = screen (s.received ++ [_])
          ++ owed Chunk.data _ (s.pending.eraseIdx 0)
        rw [rest, owed_erase_first hk (by simp [hnew]) (by simp)] at hscroll
        rw [screen_snoc, paint, List.append_assoc]
        exact hscroll

theorem follows_connect (h : Follows s s.pc) (hok : Ready s s.pc)
    (hs : s.connect = some s') : Follows s' s'.pc := by
  rw [connect] at hs
  cases hpc : s.pc with
  | register =>
      rw [hpc] at hs
      obtain rfl := Option.some.inj hs
      trivial
  | snapshot =>
      rw [hpc] at hs
      obtain rfl := Option.some.inj hs
      have hrest : owed Chunk.data (fun e => !e.inSnapshot)
          (s.pending.map fun e => { e with inSnapshot := true }) = [] := by
        refine owed_eq_nil fun e he => ?_
        obtain ⟨e', -, rfl⟩ := List.mem_map.mp he
        rfl
      show s.scrollback = s.scrollback ++ rest _
      rw [rest, hrest, List.append_nil]
  | reset scrollback =>
      rw [hpc] at hs hok h
      obtain rfl := Option.some.inj hs
      have hscroll : s.scrollback = scrollback ++ rest s.pending := h
      dsimp only
      split
      · rename_i hempty
        rw [List.isEmpty_iff] at hempty
        rw [hempty] at hscroll
        refine ⟨?_, hok⟩
        rw [screen_snoc]
        exact hscroll
      · exact ⟨hscroll, by rw [screen_snoc]; rfl, hok⟩
  | replay scrollback =>
      rw [hpc] at hs h
      obtain rfl := Option.some.inj hs
      obtain ⟨hscroll, hblank, hold⟩ := h
      refine ⟨?_, hold⟩
      rw [screen_snoc, hblank]
      exact hscroll
  | done => rw [hpc] at hs; cases hs

/-! ## Every run -/

/-- When the client is connected and no emit is under way, it has the
scrollback on its screen. -/
def Replayed (s : Connecting) : Prop :=
  s.pc = .done → s.pending = [] → screen s.received = s.scrollback

theorem follows_step (a : ConnectStep) (h : Follows s s.pc) (hok : Gapless maxSize s a)
    (hs : step maxSize s a = some s') : Follows s' s'.pc := by
  cases a with
  | append data => exact follows_append h hok hs
  | send k => exact follows_send h hok hs
  | connect => exact follows_connect h hok hs

/-- **Reconnect replay is exact.** -/
theorem connect_replays {scrollback : List UInt8}
    (h : Reach (step maxSize) (Gapless maxSize) (start scrollback) s) : Replayed s := by
  have hfollows := h.invariant (fun s => Follows s s.pc) trivial
    fun _ a _ hs hok hnext => follows_step a hs hok hnext
  intro hdone hpending
  rw [hdone] at hfollows
  obtain ⟨hscroll, -⟩ := hfollows
  rw [hscroll, rest, hpending, owed_nil, List.append_nil]

/-! ## An emit across the connection -/

instance (s : Connecting) : Decidable (Replayed s) :=
  inferInstanceAs (Decidable (s.pc = .done → s.pending = [] → screen s.received = s.scrollback))

/-- `A` is appended before the snapshot and broadcast after the reset, so
the client gets it twice. -/
theorem emit_crosses_connect :
    ∃ s, Reach (step (2 ^ 20)) Free (start []) s ∧ ¬Replayed s := by
  obtain ⟨s, hs, hbad⟩ := reach_of_replay (p := fun s : Connecting => decide ¬Replayed s)
    (show (replay (step (2 ^ 20)) Free (start [])
      [.append [0x41], .connect, .connect, .connect, .send 0, .connect]).map _ = some true by
      decide)
  exact ⟨s, hs, of_decide_eq_true hbad⟩

/-- `B` is broadcast ahead of the reset, and `C` after the replay. -/
theorem gapless_connect_replays :
    ∃ s : Connecting, s.pc = .done ∧ screen s.received = s.scrollback
      ∧ s.scrollback = [0x41, 0x42, 0x43] := by
  obtain ⟨s, hs, hend⟩ := reach_of_replay
    (p := fun s : Connecting => decide (s.pc = .done ∧ s.pending = []
      ∧ s.scrollback = [0x41, 0x42, 0x43]))
    (show (replay (step (2 ^ 20)) (Gapless (2 ^ 20)) (start [0x41])
      [.append [0x42], .connect, .connect, .append [0x43], .send 0, .connect, .connect,
        .send 0]).map _ = some true by decide)
  obtain ⟨hdone, hpending, hscroll⟩ := of_decide_eq_true hend
  exact ⟨s, hdone, connect_replays hs hdone hpending, hscroll⟩

end Connecting

end Zmux
