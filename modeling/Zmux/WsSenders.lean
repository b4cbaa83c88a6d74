import Mathlib.Data.Fintype.Basic
import Mathlib.Logic.Function.Basic
import Zmux.Runs
import Zmux.WsFrame

/-!
# Several senders on one connection

`_send_frame` is called for a client by whatever thread has something for
it: a broadcast of the PTY reader, a change of the session list, the replay
when the client connects, the answer to a ping. There is no lock for the
connection, and `sendall` hands the bytes on in pieces. A call that fails
leaves what it has sent. Three of the call sites drop the client then; the
replay prints a warning and goes on.

`Framed` is what a client can make sense of: frames that were sent, one
after another, and at the end at most the start of one, which is still
being sent or the last that comes. It holds in every run in which a call
starts to hand on bytes only between frames (`framed_of_exclusive`).
-/

namespace Zmux

namespace Ws

/-- The call sites of `_send_frame`. -/
inductive Site where
  | broadcast
  | state
  | replay
  | pong
deriving DecidableEq

def Site.opcode : Site → UInt8
  | .broadcast | .replay => 2
  | .state => 1
  | .pong => 10

/-- An exception makes the caller unregister the client. -/
def Site.drops : Site → Bool
  | .broadcast | .state | .pong => true
  | .replay => false

/-- Where a thread is in a call: what it has handed on and what not. -/
inductive SendPc where
  | idle
  | sending (site : Site) (sent rest : List UInt8)
  /-- About to call `_unregister_client`. -/
  | dropping
deriving DecidableEq

/-- The thread has handed on a part of its frame. -/
def SendPc.Inside : SendPc → Prop
  | .sending _ sent _ => sent ≠ []
  | _ => False

instance : (pc : SendPc) → Decidable pc.Inside
  | .sending _ sent _ => inferInstanceAs (Decidable (sent ≠ []))
  | .idle | .dropping => instDecidableFalse

/-- A registered client. `produced` and `torn` are ghosts: the frames of
all calls, and whether one has failed after a part of its frame. -/
structure Connection (Thread : Type*) where
  isOpen : Bool
  wire : List UInt8
  pc : Thread → SendPc
  produced : List (List UInt8)
  torn : Bool

inductive SendStep (Thread : Type*) where
  | call (t : Thread) (site : Site) (payload : List UInt8)
  /-- The socket takes some bytes. -/
  | push (t : Thread) (size : ℕ)
  | fail (t : Thread)
  | drop (t : Thread)
  /-- The client is unregistered for another reason. -/
  | disconnect
deriving DecidableEq

namespace Connection

section Senders

variable {Thread : Type*} [DecidableEq Thread]

def start : Connection Thread where
  isOpen := true
  wire := []
  pc _ := .idle
  produced := []
  torn := false

def goto (s : Connection Thread) (t : Thread) (pc : SendPc) : Connection Thread :=
  { s with pc := Function.update s.pc t pc }

def step (s : Connection Thread) : SendStep Thread → Option (Connection Thread)
  | .call t site payload =>
    match s.pc t, sendFrame site.opcode payload with
    | .idle, some bytes =>
      some { s.goto t (.sending site [] bytes) with produced := s.produced ++ [bytes] }
    | _, _ => none
  | .push t size =>
    match s.pc t with
    | .sending site sent rest =>
      if s.isOpen = true ∧ 0 < size ∧ size ≤ rest.length then
        let s := { s with wire := s.wire ++ rest.take size }
        if size = rest.length then some (s.goto t .idle)
        else some (s.goto t (.sending site (sent ++ rest.take size) (rest.drop size)))
      else none
    | _ => none
  | .fail t =>
    match s.pc t with
    | .sending site sent _ =>
      some { s.goto t (if site.drops then .dropping else .idle) with
        torn := s.torn || decide (sent ≠ []) }
    | _ => none
  | .drop t =>
    match s.pc t with
    | .dropping => some { s.goto t .idle with isOpen := false }
    | _ => none
  | .disconnect => some { s with isOpen := false }

/-- The client is unregistered, or about to be. -/
def Dropped (s : Connection Thread) : Prop :=
  s.isOpen = false ∨ ∃ t, s.pc t = .dropping

/-- Frames one after another, and at most the start of one more. -/
def Framed (s : Connection Thread) : Prop :=
  ∃ (complete : List (List UInt8)) (cut : List UInt8),
    s.wire = complete.flatten ++ cut ∧ (∀ f ∈ complete, f ∈ s.produced) ∧
    (cut = [] ∨ (∃ f ∈ s.produced, cut <+: f) ∧
      ((∃ t site rest, s.pc t = .sending site cut rest) ∨ s.Dropped))

/-- A call hands on its first bytes only while no other is inside of its
frame and none was left unfinished, and a replay that has begun a frame
fails only if the client is gone. -/
def Exclusive (s : Connection Thread) : SendStep Thread → Prop
  | .push t _ => (s.pc t).Inside ∨ ((∀ t', ¬ (s.pc t').Inside) ∧ s.torn = false)
  | .fail t => ∀ sent rest, s.pc t = .sending .replay sent rest → sent = [] ∨ s.isOpen = false
  | _ => True

instance [Fintype Thread] (s : Connection Thread) (a : SendStep Thread) :
    Decidable (Exclusive s a) :=
  match a with
  | .push t _ => inferInstanceAs
      (Decidable ((s.pc t).Inside ∨ ((∀ t', ¬ (s.pc t').Inside) ∧ s.torn = false)))
  | .fail t =>
    match h : s.pc t with
    | .sending .replay sent _ => decidable_of_iff (sent = [] ∨ s.isOpen = false)
        (by simp [Exclusive, h])
    | .sending .broadcast _ _ | .sending .state _ _ | .sending .pong _ _ | .idle | .dropping =>
      isTrue (by simp [Exclusive, h])
  | .call .. | .drop _ | .disconnect => instDecidableTrue

/-! ## The invariant -/

/-- `complete` and `cut` are what has been handed on. A frame that is cut
is that of the only thread inside of one, or was left by a call that
failed. -/
structure Tidy (s : Connection Thread) (complete : List (List UInt8)) (cut : List UInt8) :
    Prop where
  wire : s.wire = complete.flatten ++ cut
  complete : ∀ f ∈ complete, f ∈ s.produced
  whole : ∀ t site sent rest, s.pc t = .sending site sent rest →
    sent ++ rest ∈ s.produced ∧ rest ≠ []
  inside : ∀ t site sent rest, s.pc t = .sending site sent rest → sent ≠ [] →
    cut = sent ∧ s.torn = false ∧ ∀ t', (s.pc t').Inside → t' = t
  quiet : (∀ t, ¬ (s.pc t).Inside) → s.torn = false → cut = []
  torn : s.torn = true → (∃ f ∈ s.produced, cut <+: f) ∧ s.Dropped

variable {s s' : Connection Thread} {complete : List (List UInt8)} {cut : List UInt8}

omit [DecidableEq Thread] in
theorem tidy_start : Tidy (start : Connection Thread) [] [] where
  wire := rfl
  complete := nofun
  whole := nofun
  inside := nofun
  quiet _ _ := rfl
  torn := nofun

theorem goto_pc_self (s : Connection Thread) (t : Thread) (pc : SendPc) :
    (s.goto t pc).pc t = pc :=
  Function.update_self ..

theorem goto_pc_ne {t t' : Thread} (pc : SendPc) (h : t' ≠ t) : (s.goto t pc).pc t' = s.pc t' :=
  Function.update_of_ne h ..

omit [DecidableEq Thread] in
theorem inside_of_sending {t : Thread} {site : Site} {sent rest : List UInt8}
    (h : s.pc t = .sending site sent rest) : (s.pc t).Inside ↔ sent ≠ [] := by
  rw [h]
  exact Iff.rfl

omit [DecidableEq Thread] in
/-- Either a thread is inside of its frame, or nothing is cut or a call has
failed. -/
theorem Tidy.framed (h : Tidy s complete cut) : Framed s := by
  refine ⟨complete, cut, h.wire, h.complete, ?_⟩
  by_cases hinside : ∃ t, (s.pc t).Inside
  · obtain ⟨t, ht⟩ := hinside
    cases hpc : s.pc t with
    | idle =>
        rw [hpc] at ht
        exact absurd ht id
    | dropping =>
        rw [hpc] at ht
        exact absurd ht id
    | sending site sent rest =>
        obtain ⟨rfl, -, -⟩ := h.inside t site sent rest hpc ((inside_of_sending hpc).mp ht)
        exact Or.inr ⟨⟨_, (h.whole t site _ rest hpc).1, List.prefix_append ..⟩,
          Or.inl ⟨t, site, rest, hpc⟩⟩
  · have hnone : ∀ t, ¬ (s.pc t).Inside := fun t ht => hinside ⟨t, ht⟩
    cases htorn : s.torn with
    | false => exact Or.inl (h.quiet hnone htorn)
    | true =>
        obtain ⟨hcut, hdropped⟩ := h.torn htorn
        exact Or.inr ⟨hcut, Or.inr hdropped⟩

/-- Steps that hand on nothing: a thread outside of its frame stays
outside. -/
theorem Tidy.outside (h : Tidy s complete cut) {t : Thread} {pc : SendPc}
    (hnow : ¬ (s.pc t).Inside) (hnext : ¬ pc.Inside) (produced : List (List UInt8))
    (hwhole : ∀ site sent rest, pc = .sending site sent rest →
      sent ++ rest ∈ s.produced ++ produced ∧ rest ≠ [])
    (isOpen : Bool) (hdropped : s.Dropped → isOpen = false ∨
      ∃ t', (s.goto t pc).pc t' = .dropping) :
    Tidy { s.goto t pc with produced := s.produced ++ produced, isOpen := isOpen }
      complete cut := by
  have hothers : ∀ t', ((s.goto t pc).pc t').Inside → (s.pc t').Inside := by
    intro t' ht'
    by_cases hself : t' = t
    · subst hself
      rw [goto_pc_self] at ht'
      exact absurd ht' hnext
    · rwa [goto_pc_ne pc hself] at ht'
  refine ⟨h.wire, fun f hf => List.mem_append_left _ (h.complete f hf),
    fun t' site sent rest ht' => ?_, fun t' site sent rest ht' hsent => ?_, fun hnone htorn => ?_,
    fun htorn => ?_⟩
  · by_cases hself : t' = t
    · subst hself
      exact hwhole site sent rest ((goto_pc_self ..).symm.trans ht')
    · obtain ⟨hmem, hrest⟩ := h.whole t' site sent rest ((goto_pc_ne pc hself).symm.trans ht')
      exact ⟨List.mem_append_left _ hmem, hrest⟩
  · have hself : t' ≠ t := by
      rintro rfl
      have hpc : pc = .sending site sent rest := (goto_pc_self ..).symm.trans ht'
      rw [hpc] at hnext
      exact hnext hsent
    obtain ⟨hcut, htorn, honly⟩ :=
      h.inside t' site sent rest ((goto_pc_ne pc hself).symm.trans ht') hsent
    exact ⟨hcut, htorn, fun t'' ht'' => honly t'' (hothers t'' ht'')⟩
  · refine h.quiet (fun t' ht' => ?_) htorn
    have hself : t' ≠ t := by
      rintro rfl
      exact hnow ht'
    refine hnone t' ?_
    rw [show ({ s.goto t pc with
      produced := s.produced ++ produced, isOpen := isOpen } : Connection Thread).pc t' = s.pc t'
        from goto_pc_ne pc hself]
    exact ht'
  · obtain ⟨⟨f, hf, hstarts⟩, hdrop⟩ := h.torn htorn
    exact ⟨⟨f, List.mem_append_left _ hf, hstarts⟩, hdropped hdrop⟩

omit [DecidableEq Thread] in
/-- A thread that may hand on bytes is the only one inside of a frame, if
there is one. -/
theorem Tidy.alone (h : Tidy s complete cut) {t : Thread} {site : Site} {sent rest : List UInt8}
    (hpc : s.pc t = .sending site sent rest)
    (hok : (s.pc t).Inside ∨ ((∀ t', ¬ (s.pc t').Inside) ∧ s.torn = false)) :
    cut = sent ∧ s.torn = false ∧ ∀ t', (s.pc t').Inside → t' = t := by
  by_cases hsent : sent = []
  · have hnot : ¬ (s.pc t).Inside := fun hin => (inside_of_sending hpc).mp hin hsent
    obtain ⟨hnone, htorn⟩ := hok.resolve_left hnot
    exact ⟨(h.quiet hnone htorn).trans hsent.symm, htorn,
      fun t' ht' => absurd ht' (hnone t')⟩
  · exact h.inside t site sent rest hpc hsent

/-- A client that is dropped stays so when another thread moves on than the
one that drops it. -/
theorem dropped_goto {t : Thread} {pc : SendPc} (hpc : s.pc t ≠ .dropping) (h : s.Dropped) :
    (s.goto t pc).Dropped := by
  rcases h with hclosed | ⟨t', ht'⟩
  · exact Or.inl hclosed
  · refine Or.inr ⟨t', ?_⟩
    have hself : t' ≠ t := by
      rintro rfl
      exact hpc ht'
    rw [goto_pc_ne pc hself]
    exact ht'

theorem Tidy.whole_goto (h : Tidy s complete cut) {t : Thread} {pc : SendPc}
    (hthis : ∀ site sent rest, pc = .sending site sent rest →
      sent ++ rest ∈ s.produced ∧ rest ≠ []) (t' : Thread) (site : Site)
    (sent rest : List UInt8) (ht' : (s.goto t pc).pc t' = .sending site sent rest) :
    sent ++ rest ∈ s.produced ∧ rest ≠ [] := by
  by_cases hself : t' = t
  · subst hself
    exact hthis site sent rest ((goto_pc_self ..).symm.trans ht')
  · exact h.whole t' site sent rest ((goto_pc_ne pc hself).symm.trans ht')

/-- The only thread inside of its frame is the only one when it moves on. -/
theorem alone_goto {t : Thread} {pc : SendPc} (honly : ∀ t', (s.pc t').Inside → t' = t)
    (t' : Thread) (hin : ((s.goto t pc).pc t').Inside) : t' = t := by
  by_contra hself
  rw [goto_pc_ne pc hself] at hin
  exact hself (honly t' hin)

/-- The rest of a frame is handed on. -/
theorem Tidy.completed (h : Tidy s complete cut) {t : Thread} {site : Site} {rest : List UInt8}
    (hpc : s.pc t = .sending site cut rest) (htorn : s.torn = false)
    (honly : ∀ t', (s.pc t').Inside → t' = t) :
    Tidy (({ s with wire := s.wire ++ rest } : Connection Thread).goto t .idle)
      (complete ++ [cut ++ rest]) [] := by
  refine ⟨?_, fun f hf => ?_, h.whole_goto ?_,
    fun t' site' sent' rest' ht' hsent => ?_, fun _ _ => rfl,
    fun hbad => absurd (htorn.symm.trans hbad) (by decide)⟩
  · change s.wire ++ rest = _
    rw [h.wire]
    simp
  · rcases List.mem_append.mp hf with hf | hf
    · exact h.complete f hf
    · rw [List.mem_singleton.mp hf]
      exact (h.whole t site cut rest hpc).1
  · nofun
  · obtain rfl := alone_goto honly t' ((inside_of_sending ht').mpr hsent)
    cases (goto_pc_self ..).symm.trans ht'

/-- A part of the rest is handed on. -/
theorem Tidy.more (h : Tidy s complete cut) {t : Thread} {site : Site} {rest : List UInt8}
    (hpc : s.pc t = .sending site cut rest) (htorn : s.torn = false)
    (honly : ∀ t', (s.pc t').Inside → t' = t) {size : ℕ} (hpos : 0 < size)
    (hsize : size < rest.length) :
    Tidy (({ s with wire := s.wire ++ rest.take size } : Connection Thread).goto t
      (.sending site (cut ++ rest.take size) (rest.drop size))) complete
      (cut ++ rest.take size) := by
  have hnew : cut ++ rest.take size ≠ [] := by
    intro hnil
    have hlength := congrArg List.length hnil
    simp only [List.length_append, List.length_take, List.length_nil] at hlength
    omega
  have hdrop : rest.drop size ≠ [] := by
    rw [ne_eq, List.drop_eq_nil_iff]
    omega
  refine ⟨?_, h.complete, h.whole_goto ?_, fun t' site' sent' rest' ht' hsent => ?_,
    fun hnone _ => ?_, fun hbad => absurd (htorn.symm.trans hbad) (by decide)⟩
  · change s.wire ++ rest.take size = _
    rw [h.wire, List.append_assoc]
  · rintro _ _ _ ⟨⟩
    refine ⟨?_, hdrop⟩
    rw [List.append_assoc, List.take_append_drop]
    exact (h.whole t site cut rest hpc).1
  · obtain rfl := alone_goto honly t' ((inside_of_sending ht').mpr hsent)
    cases (goto_pc_self ..).symm.trans ht'
    exact ⟨rfl, htorn, alone_goto honly⟩
  · refine absurd ?_ (hnone t)
    change ((s.goto t _).pc t).Inside
    rw [goto_pc_self]
    exact hnew

/-- A call fails before its frame, or inside of it and the client is gone
or about to be unregistered. -/
theorem Tidy.fail (h : Tidy s complete cut) {t : Thread} {site : Site} {sent rest : List UInt8}
    (hpc : s.pc t = .sending site sent rest)
    (hok : site.drops = false → sent = [] ∨ s.isOpen = false) :
    Tidy { s.goto t (if site.drops then .dropping else .idle) with
      torn := s.torn || decide (sent ≠ []) } complete cut := by
  have hnext : ¬ (if site.drops then SendPc.dropping else .idle).Inside := by
    cases site.drops <;> exact id
  have hnosend : ∀ site' sent rest,
      (if site.drops then SendPc.dropping else .idle) ≠ .sending site' sent rest := by
    cases site.drops <;> nofun
  by_cases hsent : sent = []
  · have hnot : ¬ (s.pc t).Inside := fun hin => (inside_of_sending hpc).mp hin hsent
    have htidy := h.outside hnot hnext [] (fun _ _ _ hbad => absurd hbad (hnosend _ _ _))
      s.isOpen (dropped_goto (by rw [hpc]; nofun))
    rw [List.append_nil] at htidy
    simpa [hsent, goto] using htidy
  · obtain ⟨rfl, htorn, honly⟩ := h.inside t site sent rest hpc hsent
    refine ⟨h.wire, h.complete,
      h.whole_goto fun _ _ _ hbad => absurd hbad (hnosend _ _ _),
      fun t' site' sent' rest' ht' hin => ?_, fun _ hbad => ?_,
      fun _ => ⟨⟨_, (h.whole t site _ rest hpc).1, List.prefix_append ..⟩, ?_⟩⟩
    · obtain rfl := alone_goto honly t' ((inside_of_sending ht').mpr hin)
      exact absurd ((goto_pc_self ..).symm.trans ht') (hnosend _ _ _)
    · simp [hsent] at hbad
    · cases hdrops : site.drops with
      | true =>
          refine Or.inr ⟨t, ?_⟩
          exact goto_pc_self ..
      | false => exact Or.inl ((hok hdrops).resolve_left hsent)

theorem tidy_step {a : SendStep Thread} (h : Tidy s complete cut) (hok : Exclusive s a)
    (hs : step s a = some s') : ∃ complete cut, Tidy s' complete cut := by
  unfold step at hs
  cases a with
  | call t site payload =>
      dsimp only at hs
      split at hs
      · rename_i bytes hpc hbytes
        obtain rfl := Option.some.inj hs
        have hnot : ¬ (s.pc t).Inside := by
          rw [hpc]
          exact id
        have hnext : ¬ (SendPc.sending site [] bytes).Inside := fun hin => hin rfl
        refine ⟨complete, cut, h.outside hnot hnext [bytes]
          (fun site' sent rest hsending => ?_) s.isOpen (dropped_goto (by rw [hpc]; nofun))⟩
        cases hsending
        exact ⟨List.mem_append_right _ (List.mem_singleton_self _), sendFrame_ne_nil hbytes⟩
      · cases hs
  | push t size =>
      dsimp only at hs
      split at hs
      · rename_i site sent rest hpc
        split at hs
        · rename_i hguard
          obtain ⟨rfl, htorn, honly⟩ := h.alone hpc hok
          split at hs
          · rename_i hall
            rw [hall, List.take_length] at hs
            obtain rfl := Option.some.inj hs
            exact ⟨_, _, h.completed hpc htorn honly⟩
          · rename_i hpart
            obtain rfl := Option.some.inj hs
            exact ⟨_, _, h.more hpc htorn honly hguard.2.1 (Nat.lt_of_le_of_ne hguard.2.2 hpart)⟩
        · cases hs
      · cases hs
  | fail t =>
      dsimp only at hs
      split at hs
      · rename_i site sent rest hpc
        obtain rfl := Option.some.inj hs
        refine ⟨complete, cut, h.fail hpc fun hdrops => ?_⟩
        cases site with
        | replay => exact hok sent rest hpc
        | broadcast => cases hdrops
        | state => cases hdrops
        | pong => cases hdrops
      · cases hs
  | drop t =>
      dsimp only at hs
      split at hs
      · rename_i hpc
        obtain rfl := Option.some.inj hs
        have hnot : ¬ (s.pc t).Inside := by
          rw [hpc]
          exact id
        have hnext : ¬ SendPc.idle.Inside := id
        have htidy := h.outside hnot hnext [] nofun false fun _ => Or.inl rfl
        rw [List.append_nil] at htidy
        exact ⟨complete, cut, htidy⟩
      · cases hs
  | disconnect =>
      obtain rfl := Option.some.inj hs
      exact ⟨complete, cut, h.wire, h.complete, h.whole, h.inside, h.quiet,
        fun htorn => ⟨(h.torn htorn).1, Or.inl rfl⟩⟩

/-- **Frames stay whole** in every run in which a call starts to hand on
bytes only between frames. -/
theorem framed_of_exclusive (h : Reach step Exclusive (start : Connection Thread) s) :
    Framed s := by
  obtain ⟨complete, cut, htidy⟩ := h.invariant (fun s => ∃ complete cut, Tidy s complete cut)
    ⟨[], [], tidy_start⟩ fun _ _ _ ⟨_, _, htidy⟩ hok hstep => tidy_step htidy hok hstep
  exact htidy.framed

end Senders

/-- Output in two pieces, then a change of the session list. -/
theorem in_turn_is_framed : ∃ s : Connection Bool, Framed s ∧
    s.wire = [0x82, 2, 1, 2] ++ [0x81, 1, 9] := by
  obtain ⟨s, hs, hend⟩ := reach_of_replay
    (p := fun s : Connection Bool => decide (s.wire = [0x82, 2, 1, 2] ++ [0x81, 1, 9]))
    (show (replay step Exclusive start
      [.call true .broadcast [1, 2], .call false .state [9], .push true 3, .push true 1,
        .push false 3]).map _ = some true by decide)
  exact ⟨s, framed_of_exclusive hs, of_decide_eq_true hend⟩

/-- The same two calls, with the second inside of the first. -/
theorem interleaved_is_not_framed : ∃ s : Connection Bool, Reach step Free start s ∧
    s.wire = [0x82, 2, 1, 0x81, 1, 9, 2] ∧ ¬ Framed s := by
  obtain ⟨s, hs, hend⟩ := reach_of_replay
    (p := fun s : Connection Bool => decide (s.wire = [0x82, 2, 1, 0x81, 1, 9, 2] ∧
      s.produced = [[0x82, 2, 1, 2], [0x81, 1, 9]]))
    (show (replay step Free start
      [.call true .broadcast [1, 2], .call false .state [9], .push true 3, .push false 3,
        .push true 1]).map _ = some true by decide)
  obtain ⟨hwire, hproduced⟩ := of_decide_eq_true hend
  refine ⟨s, hs, hwire, ?_⟩
  rintro ⟨complete, cut, hsplit, hcomplete, hcut⟩
  rw [hwire] at hsplit
  rw [hproduced] at hcomplete hcut
  cases complete with
  | nil =>
      -- neither frame is as long as the stream
      obtain rfl : [0x82, 2, 1, 0x81, 1, 9, 2] = cut := hsplit
      obtain ⟨⟨f, hf, hstarts⟩, -⟩ := hcut.resolve_left (by decide)
      have hlong : ∀ f ∈ [[0x82, 2, 1, 2], [0x81, 1, 9]], (f : List UInt8).length < 7 := by decide
      exact absurd hstarts.length_le (Nat.not_le_of_lt (hlong f hf))
  | cons f fs =>
      -- and neither is at its start
      have hstarts : f <+: [0x82, 2, 1, 0x81, 1, 9, 2] := by
        rw [hsplit, List.flatten_cons, List.append_assoc]
        exact List.prefix_append ..
      have hnone : ∀ f ∈ [[0x82, 2, 1, 2], [0x81, 1, 9]],
          ¬ (f : List UInt8) <+: [0x82, 2, 1, 0x81, 1, 9, 2] := by decide
      exact hnone f (hcomplete f (List.mem_cons_self ..)) hstarts

end Connection

end Ws

end Zmux
