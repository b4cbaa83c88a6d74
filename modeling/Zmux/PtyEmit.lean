import Mathlib.Algebra.Ring.Nat
import Mathlib.Data.List.Basic
import Mathlib.Data.List.Nodup
import Mathlib.Data.List.Range
import Mathlib.Logic.Function.Basic
import Zmux.PtyControls
import Zmux.Runs

/-!
# Several threads emit on one session

`_emit` of `pty_session.py` is called by the PTY reader, the output pump
of a pipeline, the stderr drains, the storage worker and the input echo,
without a common lock. Its steps: read the control tail, clear it, filter
and store the new tail, append to the scrollback under the buffer lock,
hand the chunk to the output callback. The scrollback keeps the last
`maxSize` bytes, which is the session's `scrollback_max_size`.

The bytes of the model carry the thread they were passed in by and a
serial number, so that a run shows where each of them went. `Apart` is
the condition under which the unlocked steps do no harm: a thread finds
no tail but its own, and chunks are handed on in the order of the
scrollback. The line-start flag that `_emit` maintains next to the
scrollback is left out.
-/

namespace Zmux

structure Byte (Thread : Type*) where
  value : UInt8
  source : Thread
  serial : Nat
deriving DecidableEq

/-- Where a thread is in `_emit`. -/
inductive EmitPc (β : Type*) where
  | idle
  | entered (data : List β)
  | taken (held data : List β)
  | cleared (pending : List β)
  | stored (out : List β)
  /-- `out` is the chunk at `position` of the scrollback. -/
  | appended (out : List β) (position : Nat)

/-- The bytes a thread holds that are in no shared variable. -/
def EmitPc.hand {β : Type*} : EmitPc β → List β
  | .entered data => data
  | .taken _ data => data
  | .cleared pending => pending
  | .stored out => out
  | _ => []

/-- The append to the scrollback, which keeps the last `maxSize` bytes. -/
def recordScrollback {β : Type*} (maxSize : Nat) (buffer data : List β) : List β :=
  (buffer ++ data).drop ((buffer ++ data).length - maxSize)

theorem recordScrollback_eq {β : Type*} {maxSize : Nat} {buffer data : List β}
    (h : buffer.length + data.length ≤ maxSize) :
    recordScrollback maxSize buffer data = buffer ++ data := by
  rw [recordScrollback, List.length_append, Nat.sub_eq_zero_of_le h, List.drop_zero]

/-- `inputs` and `chunks` are ghosts: all bytes passed in, and the chunks
appended to the scrollback in their order. -/
structure Emitter (Thread : Type*) where
  tail : List (Byte Thread)
  scrollback : List (Byte Thread)
  storageRequests : Nat
  sent : List (List (Byte Thread))
  pc : Thread → EmitPc (Byte Thread)
  inputs : List (Byte Thread)
  chunks : List (List (Byte Thread))

inductive EmitStep (Thread : Type*) where
  | call (t : Thread) (data : List UInt8)
  | go (t : Thread)

/-- The bytes of a call, tagged. -/
def tag {Thread : Type*} (t : Thread) : Nat → List UInt8 → List (Byte Thread)
  | _, [] => []
  | serial, v :: vs => ⟨v, t, serial⟩ :: tag t (serial + 1) vs

theorem tag_source {Thread : Type*} {t : Thread} : ∀ {serial : Nat} {data : List UInt8},
    ∀ b ∈ tag t serial data, b.source = t
  | _, [], _, hb => (List.not_mem_nil hb).elim
  | serial, v :: vs, b, hb => by
      rcases List.mem_cons.mp hb with rfl | hb
      · rfl
      · exact tag_source b hb

theorem tag_serial {Thread : Type*} {t : Thread} : ∀ (serial : Nat) (data : List UInt8),
    (tag t serial data).map Byte.serial = List.range' serial data.length
  | _, [] => rfl
  | serial, v :: vs => by
      rw [tag, List.map_cons, tag_serial, List.length_cons, List.range'_succ]

namespace Emitter

section Emit

variable {Thread : Type*} [DecidableEq Thread] (maxSize : Nat)

def start : Emitter Thread where
  tail := []
  scrollback := []
  storageRequests := 0
  sent := []
  pc _ := .idle
  inputs := []
  chunks := []

def goto (s : Emitter Thread) (t : Thread) (pc : EmitPc (Byte Thread)) : Emitter Thread :=
  { s with pc := Function.update s.pc t pc }

/-- The next step of the thread `t` in its call of `_emit`. -/
def go (s : Emitter Thread) (t : Thread) : Option (Emitter Thread) :=
  match s.pc t with
  | .idle => none
  | .entered data => some (s.goto t (.taken s.tail data))
  | .taken held data => some { s.goto t (.cleared (held ++ data)) with tail := [] }
  | .cleared pending =>
    let (out, tail, controls) := filterPtyControls Byte.value pending
    some { s.goto t (if out.isEmpty then .idle else .stored out) with
      tail := if tail.isEmpty then s.tail else tail
      storageRequests := s.storageRequests + controls }
  | .stored out =>
    some { s.goto t (.appended out s.chunks.length) with
      scrollback := recordScrollback maxSize s.scrollback out
      chunks := s.chunks ++ [out] }
  | .appended out _ => some { s.goto t .idle with sent := s.sent ++ [out] }

def step (s : Emitter Thread) : EmitStep Thread → Option (Emitter Thread)
  | .call t data =>
    match s.pc t with
    | .idle => some { s.goto t (.entered (tag t s.inputs.length data)) with
        inputs := s.inputs ++ tag t s.inputs.length data }
    | _ => none
  | .go t => go maxSize s t

/-- A step of the thread `t` at `pc` does not meet another thread's bytes:

- it reads and clears the tail only if all of it is its own;
- it stores a new tail only over an empty one;
- what it appends fits into the scrollback;
- the chunk it hands on is the oldest one not handed on yet. -/
def Untangled (s : Emitter Thread) (t : Thread) : EmitPc (Byte Thread) → Prop
  | .idle => True
  | .entered _ => ∀ b ∈ s.tail, b.source = t
  | .taken _ _ => ∀ b ∈ s.tail, b.source = t
  | .cleared pending => (filterPtyControls Byte.value pending).2.1 ≠ [] → s.tail = []
  | .stored out => s.scrollback.length + out.length ≤ maxSize
  | .appended _ position => position = s.sent.length

def Apart (s : Emitter Thread) : EmitStep Thread → Prop
  | .call _ _ => True
  | .go t => Untangled maxSize s t (s.pc t)

instance (s : Emitter Thread) (t : Thread) (pc : EmitPc (Byte Thread)) :
    Decidable (Untangled maxSize s t pc) :=
  match pc with
  | .idle => instDecidableTrue
  | .entered _ | .taken _ _ => inferInstanceAs (Decidable (∀ b ∈ s.tail, b.source = t))
  | .cleared pending => inferInstanceAs
      (Decidable ((filterPtyControls Byte.value pending).2.1 ≠ [] → s.tail = []))
  | .stored out => inferInstanceAs
      (Decidable (s.scrollback.length + out.length ≤ maxSize))
  | .appended _ position => inferInstanceAs (Decidable (position = s.sent.length))

instance (s : Emitter Thread) (a : EmitStep Thread) : Decidable (Apart maxSize s a) :=
  match a with
  | .call _ _ => instDecidableTrue
  | .go t => inferInstanceAs (Decidable (Untangled maxSize s t (s.pc t)))

/-! ## The invariant -/

/-- All bytes come from one thread. -/
def OneSource (bytes : List (Byte Thread)) : Prop :=
  ∀ b ∈ bytes, ∀ b' ∈ bytes, b.source = b'.source

/-- Where the bytes are. A byte that is in no shared variable is in the
hand of the thread that passed it in, which makes the sum over all
threads unnecessary. `removed` are the bytes of the storage OSCs. -/
structure Located (s : Emitter Thread) (removed : List (Byte Thread)) : Prop where
  serial : s.inputs.map Byte.serial = List.range s.inputs.length
  controls : removed.map Byte.value
    = (List.replicate s.storageRequests storageSetupOsc).flatten
  count : ∀ b, (s.scrollback ++ s.tail ++ removed ++ (s.pc b.source).hand).count b
    = s.inputs.count b
  hand : ∀ t, ∀ b ∈ (s.pc t).hand, b.source = t
  tail : OneSource s.tail
  /-- What a thread has read is the tail still, or there was none. -/
  held : ∀ t held data, s.pc t = .taken held data → (∀ b ∈ held, b.source = t)
    ∧ (held = s.tail ∨ held = [] ∧ ∀ b ∈ s.tail, b.source ≠ t)

/-- The chunks in the scrollback, and those that were handed on. -/
structure Ordered (s : Emitter Thread) : Prop where
  source : ∀ chunk ∈ s.chunks, OneSource chunk
  recorded : s.scrollback = s.chunks.flatten
  sent : s.sent = s.chunks.take s.sent.length
  place : ∀ t out position, s.pc t = .appended out position → s.chunks[position]? = some out
  unsent : ∀ position, s.sent.length ≤ position → position < s.chunks.length →
    ∃ t out, s.pc t = .appended out position

variable {maxSize} {s s' : Emitter Thread} {t : Thread} {removed : List (Byte Thread)}

@[simp] theorem goto_pc_self (s : Emitter Thread) (t : Thread) (pc : EmitPc (Byte Thread)) :
    (s.goto t pc).pc t = pc := Function.update_self ..

theorem goto_pc_ne (s : Emitter Thread) {t t' : Thread} (pc : EmitPc (Byte Thread))
    (h : t' ≠ t) : (s.goto t pc).pc t' = s.pc t' := Function.update_of_ne h ..

/-! ## Steps that append and hand on nothing -/

/-- The thread has no chunk in the scrollback that it still has to hand on. -/
def Unsettled : EmitPc (Byte Thread) → Prop
  | .appended _ _ => False
  | _ => True

theorem Ordered.quiet (h : Ordered s) {pc : EmitPc (Byte Thread)} (hold : Unsettled (s.pc t))
    (hnew : Unsettled pc) (hpc : s'.pc = (s.goto t pc).pc) (hscroll : s'.scrollback = s.scrollback)
    (hchunks : s'.chunks = s.chunks) (hsent : s'.sent = s.sent) : Ordered s' where
  source := hchunks ▸ h.source
  recorded := by rw [hscroll, hchunks]; exact h.recorded
  sent := by rw [hsent, hchunks]; exact h.sent
  place t' out position ht' := by
    rw [hpc] at ht'
    by_cases htt : t' = t
    · subst htt
      rw [goto_pc_self] at ht'
      subst ht'
      exact hnew.elim
    · rw [goto_pc_ne s pc htt] at ht'
      rw [hchunks]
      exact h.place t' out position ht'
  unsent position hle hlt := by
    rw [hsent] at hle
    rw [hchunks] at hlt
    obtain ⟨t', out, ht'⟩ := h.unsent position hle hlt
    refine ⟨t', out, ?_⟩
    have htt : t' ≠ t := by
      rintro rfl
      rw [ht'] at hold
      exact hold
    rw [hpc, goto_pc_ne s pc htt, ht']

/-! ## Where the bytes go -/

/-- Only thread `t` gets other bytes in its hands. -/
theorem Located.hand_goto (h : Located s removed) {pc : EmitPc (Byte Thread)}
    (hpc : ∀ b ∈ pc.hand, b.source = t) :
    ∀ t', ∀ b ∈ ((s.goto t pc).pc t').hand, b.source = t' := by
  intro t' b hb
  by_cases htt : t' = t
  · subst htt
    rw [goto_pc_self] at hb
    exact hpc b hb
  · rw [goto_pc_ne s _ htt] at hb
    exact h.hand t' b hb

/-- What is to be known of the bytes that threads have read from the tail,
after a step of thread `t`. -/
theorem held_goto {P : Thread → List (Byte Thread) → Prop} {pc : EmitPc (Byte Thread)}
    (hpc : ∀ held data, pc = .taken held data → P t held)
    (h : ∀ t', t' ≠ t → ∀ held data, s.pc t' = .taken held data → P t' held) :
    ∀ t' held data, (s.goto t pc).pc t' = .taken held data → P t' held := by
  intro t' held data ht'
  by_cases htt : t' = t
  · subst htt
    rw [goto_pc_self] at ht'
    exact hpc held data ht'
  · rw [goto_pc_ne s _ htt] at ht'
    exact h t' htt held data ht'

theorem located_call (h : Located s removed) (hpc : s.pc t = .idle) (data : List UInt8) :
    Located { s.goto t (.entered (tag t s.inputs.length data)) with
      inputs := s.inputs ++ tag t s.inputs.length data } removed where
  serial := by
    have hlength : (tag t s.inputs.length data).length = data.length := by
      rw [← List.length_map Byte.serial, tag_serial, List.length_range']
    have hrange := @List.range'_append_1 0 s.inputs.length data.length
    rw [Nat.zero_add] at hrange
    rw [List.map_append, h.serial, tag_serial, List.length_append, hlength, List.range_eq_range',
      List.range_eq_range', hrange]
  controls := h.controls
  count b := by
    have hb := h.count b
    by_cases hbt : b.source = t
    · rw [hbt, hpc] at hb
      rw [hbt]
      simp only [goto_pc_self, EmitPc.hand, List.count_append, List.count_nil] at hb ⊢
      simp only [goto]
      omega
    · have hnot : b ∉ tag t s.inputs.length data := fun hmem => hbt (tag_source b hmem)
      simp only [goto_pc_ne s _ hbt, List.count_append, List.count_eq_zero_of_not_mem hnot] at hb ⊢
      simpa [goto] using hb
  hand := h.hand_goto fun b hb => tag_source b hb
  tail := h.tail
  held := held_goto (fun held data' ht' => by cases ht')
    fun t' _ held data' ht' => h.held t' held data' ht'

theorem located_read (h : Located s removed) {data : List (Byte Thread)}
    (hpc : s.pc t = .entered data) (hok : ∀ b ∈ s.tail, b.source = t) :
    Located (s.goto t (.taken s.tail data)) removed where
  serial := h.serial
  controls := h.controls
  count b := by
    have hb := h.count b
    by_cases hbt : b.source = t
    · rw [hbt, hpc] at hb
      rw [hbt, goto_pc_self]
      exact hb
    · rw [goto_pc_ne s _ hbt]
      exact hb
  hand := h.hand_goto fun b hb => h.hand t b (by rw [hpc]; exact hb)
  tail := h.tail
  held := held_goto
    (fun held data' ht' => by
      obtain ⟨rfl, rfl⟩ := EmitPc.taken.inj ht'
      exact ⟨hok, Or.inl rfl⟩)
    fun t' _ held data' ht' => h.held t' held data' ht'

theorem located_clear (h : Located s removed) {held data : List (Byte Thread)}
    (hpc : s.pc t = .taken held data) (hok : ∀ b ∈ s.tail, b.source = t) :
    Located { s.goto t (.cleared (held ++ data)) with tail := [] } removed := by
  obtain ⟨hsource, hheld⟩ := h.held t held data hpc
  -- nobody has touched the tail since it was read
  have htail : held = s.tail := by
    rcases hheld with hheld | ⟨rfl, hother⟩
    · exact hheld
    · refine (List.eq_nil_iff_forall_not_mem.mpr fun b hb => ?_).symm
      exact hother b hb (hok b hb)
  refine ⟨h.serial, h.controls, fun b => ?_, fun t' b hb => ?_, by simp [OneSource], ?_⟩
  · have hb := h.count b
    by_cases hbt : b.source = t
    · rw [hbt, hpc] at hb
      rw [hbt]
      simp only [goto_pc_self, EmitPc.hand, List.count_append, List.count_nil, htail] at hb ⊢
      simp only [goto]
      omega
    · have hnot : b ∉ s.tail := fun hmem => hbt (hok b hmem)
      simp only [goto_pc_ne s _ hbt, List.count_append, List.count_nil,
        List.count_eq_zero_of_not_mem hnot] at hb ⊢
      simpa [goto] using hb
  · refine h.hand_goto (fun b hb => ?_) t' b hb
    rcases List.mem_append.mp hb with hb | hb
    · exact hsource b hb
    · exact h.hand t b (by rw [hpc]; exact hb)
  · refine held_goto (fun held' data' ht' => by cases ht') fun t' htt held' data' ht' => ?_
    obtain ⟨hsource', hheld'⟩ := h.held t' held' data' ht'
    refine ⟨hsource', Or.inl ?_⟩
    rcases hheld' with rfl | ⟨rfl, -⟩
    · refine List.eq_nil_iff_forall_not_mem.mpr fun b hb => ?_
      exact htt ((hsource' b hb).symm.trans (hok b hb))
    · rfl

omit [DecidableEq Thread] in
/-- What the filter makes of bytes of one thread is of that thread. -/
theorem filter_source {pending : List (Byte Thread)} (hpending : ∀ b ∈ pending, b.source = t) :
    ∀ b, b ∈ (filterPtyControls Byte.value pending).1
      ∨ b ∈ (filterPtyControls Byte.value pending).2.1 → b.source = t := by
  intro b hb
  obtain ⟨removed, hperm, -⟩ := filterPtyControls_perm Byte.value pending
  refine hpending b (hperm.mem_iff.mp ?_)
  simp only [List.mem_append]
  exact Or.inl hb

theorem located_store (h : Located s removed) {pending out tail : List (Byte Thread)}
    {controls : Nat} (hpc : s.pc t = .cleared pending)
    (hfilter : filterPtyControls Byte.value pending = (out, tail, controls))
    (hok : tail ≠ [] → s.tail = []) :
    ∃ removed', Located { s.goto t (if out.isEmpty then .idle else .stored out) with
      tail := if tail.isEmpty then s.tail else tail
      storageRequests := s.storageRequests + controls } removed' := by
  have hpending : ∀ b ∈ pending, b.source = t := fun b hb => h.hand t b (by rw [hpc]; exact hb)
  obtain ⟨osc, hperm, hosc⟩ := filterPtyControls_perm Byte.value pending
  have hsource := filter_source hpending
  rw [hfilter] at hperm hosc hsource
  dsimp only at hperm hosc hsource
  have htail : (if tail.isEmpty then s.tail else tail) = s.tail ++ tail := by
    by_cases hnil : tail = []
    · simp [hnil]
    · simp [hok hnil]
  have hhand : (if out.isEmpty then EmitPc.idle else .stored out).hand = out := by
    cases out with
    | nil => rfl
    | cons b bs => rfl
  have hosc_source : ∀ b ∈ osc, b.source = t := fun b hb =>
    hpending b (hperm.mem_iff.mp (by simp [hb]))
  refine ⟨removed ++ osc, h.serial, ?_, fun b => ?_, fun t' b hb => ?_, ?_, ?_⟩
  · rw [List.map_append, h.controls, hosc, List.replicate_add, List.flatten_append]
  · have hb := h.count b
    have hcount := hperm.count_eq b
    by_cases hbt : b.source = t
    · rw [hbt, hpc] at hb
      rw [hbt]
      simp only [goto_pc_self, hhand, htail]
      simp only [EmitPc.hand, List.count_append] at hb hcount ⊢
      simp only [goto]
      omega
    · have htail' : b ∉ tail := fun hmem => hbt (hsource _ (Or.inr hmem))
      have hosc' : b ∉ osc := fun hmem => hbt (hosc_source b hmem)
      simp only [goto_pc_ne s _ hbt, htail, List.count_append,
        List.count_eq_zero_of_not_mem htail', List.count_eq_zero_of_not_mem hosc'] at hb ⊢
      simp only [goto]
      omega
  · refine h.hand_goto (fun b hb => ?_) t' b hb
    rw [hhand] at hb
    exact hsource _ (Or.inl hb)
  · dsimp only
    by_cases hnil : tail = []
    · simpa [hnil] using h.tail
    · intro b hb b' hb'
      rw [htail, hok hnil, List.nil_append] at hb hb'
      exact (hsource _ (Or.inr hb)).trans (hsource _ (Or.inr hb')).symm
  · refine held_goto (fun held data ht' => ?_) fun t' htt held data ht' => ?_
    · split at ht'
      · cases ht'
      · cases ht'
    · obtain ⟨hsource', hheld⟩ := h.held t' held data ht'
      refine ⟨hsource', ?_⟩
      dsimp only
      by_cases hnil : tail = []
      · simpa [hnil] using hheld
      · rw [hok hnil] at hheld
        have hempty : held = [] := hheld.elim id And.left
        rw [htail, hok hnil, List.nil_append]
        exact Or.inr ⟨hempty, fun b hb heq => htt (heq.symm.trans (hsource _ (Or.inr hb)))⟩

theorem located_append (h : Located s removed) {out : List (Byte Thread)}
    (hpc : s.pc t = .stored out)
    (hok : s.scrollback.length + out.length ≤ maxSize) :
    Located { s.goto t (.appended out s.chunks.length) with
      scrollback := recordScrollback maxSize s.scrollback out
      chunks := s.chunks ++ [out] } removed where
  serial := h.serial
  controls := h.controls
  count b := by
    have hb := h.count b
    rw [recordScrollback_eq hok]
    by_cases hbt : b.source = t
    · rw [hbt, hpc] at hb
      rw [hbt]
      simp only [goto_pc_self, EmitPc.hand, List.count_append, List.count_nil] at hb ⊢
      simp only [goto]
      omega
    · have hout : ∀ b ∈ out, b.source = t := fun b hb => h.hand t b (by rw [hpc]; exact hb)
      have hnot : b ∉ out := fun hmem => hbt (hout b hmem)
      simp only [goto_pc_ne s _ hbt, List.count_append, List.count_eq_zero_of_not_mem hnot] at hb ⊢
      simpa [goto] using hb
  hand := h.hand_goto fun b hb => by cases hb
  tail := h.tail
  held := held_goto (fun held data ht' => by cases ht')
    fun t' _ held data ht' => h.held t' held data ht'

theorem located_send (h : Located s removed) {out : List (Byte Thread)} {position : Nat}
    (hpc : s.pc t = .appended out position) :
    Located { s.goto t .idle with sent := s.sent ++ [out] } removed where
  serial := h.serial
  controls := h.controls
  count b := by
    have hb := h.count b
    by_cases hbt : b.source = t
    · rw [hbt, hpc] at hb
      rw [hbt, goto_pc_self]
      exact hb
    · rw [goto_pc_ne s _ hbt]
      exact hb
  hand := h.hand_goto fun b hb => by cases hb
  tail := h.tail
  held := held_goto (fun held data ht' => by cases ht')
    fun t' _ held data ht' => h.held t' held data ht'

/-! ## The order of the chunks -/

theorem ordered_append (h : Ordered s) {out : List (Byte Thread)} (hpc : s.pc t = .stored out)
    (hsource : OneSource out) (hok : s.scrollback.length + out.length ≤ maxSize) :
    Ordered { s.goto t (.appended out s.chunks.length) with
      scrollback := recordScrollback maxSize s.scrollback out
      chunks := s.chunks ++ [out] } where
  source chunk hchunk := by
    rcases List.mem_append.mp hchunk with hold | hnew
    · exact h.source chunk hold
    · exact List.mem_singleton.mp hnew ▸ hsource
  recorded := by
    rw [recordScrollback_eq hok, h.recorded, List.flatten_append]
    simp
  sent := by
    have hle : s.sent.length ≤ s.chunks.length := by
      rw [h.sent]
      exact List.length_take_le' ..
    show s.sent = (s.chunks ++ [out]).take s.sent.length
    rw [List.take_append_of_le_length hle, ← h.sent]
  place t' out' position ht' := by
    by_cases htt : t' = t
    · subst htt
      rw [goto_pc_self] at ht'
      obtain ⟨rfl, rfl⟩ := EmitPc.appended.inj ht'
      simp
    · simp only [goto_pc_ne s _ htt] at ht'
      have hold := h.place t' out' position ht'
      obtain ⟨hlt, -⟩ := List.getElem?_eq_some_iff.mp hold
      show (s.chunks ++ [out])[position]? = some out'
      rw [List.getElem?_append_left hlt, hold]
  unsent position hle hlt := by
    rcases Nat.lt_or_ge position s.chunks.length with hold | hnew
    · obtain ⟨t', out', ht'⟩ := h.unsent position hle hold
      refine ⟨t', out', ?_⟩
      have htt : t' ≠ t := by
        rintro rfl
        rw [hpc] at ht'
        cases ht'
      rw [← ht']
      exact goto_pc_ne s _ htt
    · have hposition : position = s.chunks.length := by
        simp only [List.length_append, List.length_singleton] at hlt
        omega
      subst hposition
      exact ⟨t, out, goto_pc_self ..⟩

theorem ordered_send (h : Ordered s) {out : List (Byte Thread)} {position : Nat}
    (hpc : s.pc t = .appended out position) (hok : position = s.sent.length) :
    Ordered { s.goto t .idle with sent := s.sent ++ [out] } where
  source := h.source
  recorded := h.recorded
  sent := by
    have hout := h.place t out position hpc
    show s.sent ++ [out] = s.chunks.take (s.sent ++ [out]).length
    rw [List.length_append, List.length_singleton, List.take_add_one, ← h.sent, ← hok, hout]
    rfl
  place t' out' position' ht' := by
    by_cases htt : t' = t
    · subst htt
      simp at ht'
    · simp only [goto_pc_ne s _ htt] at ht'
      exact h.place t' out' position' ht'
  unsent position' hle hlt := by
    simp only [List.length_append, List.length_singleton] at hle
    obtain ⟨t', out', ht'⟩ := h.unsent position' (by omega) hlt
    refine ⟨t', out', ?_⟩
    have htt : t' ≠ t := by
      rintro rfl
      rw [hpc] at ht'
      obtain ⟨-, rfl⟩ := EmitPc.appended.inj ht'
      omega
    rw [← ht']
    exact goto_pc_ne s _ htt

/-! ## Every run -/

theorem located_start : Located (start : Emitter Thread) [] where
  serial := rfl
  controls := rfl
  count _ := rfl
  hand _ _ hb := (List.not_mem_nil hb).elim
  tail := by simp [OneSource, start]
  held _ _ _ ht := by cases ht

omit [DecidableEq Thread] in
theorem ordered_start : Ordered (start : Emitter Thread) where
  source _ hchunk := (List.not_mem_nil hchunk).elim
  recorded := rfl
  sent := rfl
  place _ _ _ ht := by cases ht
  unsent _ _ hlt := absurd hlt (Nat.not_lt_zero _)

theorem kept_step (a : EmitStep Thread) (h : (∃ removed, Located s removed) ∧ Ordered s)
    (hok : Apart maxSize s a) (hs : step maxSize s a = some s') :
    (∃ removed, Located s' removed) ∧ Ordered s' := by
  obtain ⟨⟨removed, hloc⟩, hord⟩ := h
  cases a with
  | call t data =>
      rw [step] at hs
      split at hs
      · rename_i hpc
        obtain rfl := Option.some.inj hs
        exact ⟨⟨removed, located_call hloc hpc data⟩,
          hord.quiet (by rw [hpc]; trivial) (by trivial) rfl rfl rfl rfl⟩
      · cases hs
  | go t =>
      rw [step, go] at hs
      rw [Apart] at hok
      cases hpc : s.pc t with
      | idle => rw [hpc] at hs; cases hs
      | entered data =>
          rw [hpc] at hs hok
          obtain rfl := Option.some.inj hs
          exact ⟨⟨removed, located_read hloc hpc hok⟩,
            hord.quiet (by rw [hpc]; trivial) (by trivial) rfl rfl rfl rfl⟩
      | taken held data =>
          rw [hpc] at hs hok
          obtain rfl := Option.some.inj hs
          exact ⟨⟨removed, located_clear hloc hpc hok⟩,
            hord.quiet (by rw [hpc]; trivial) (by trivial) rfl rfl rfl rfl⟩
      | cleared pending =>
          rw [hpc] at hs hok
          rcases hfilter : filterPtyControls Byte.value pending with ⟨out, tail, controls⟩
          simp only [hfilter, Option.some.injEq] at hs
          rw [Untangled, hfilter] at hok
          subst hs
          refine ⟨located_store hloc hpc hfilter hok,
            hord.quiet (by rw [hpc]; trivial) ?_ rfl rfl rfl rfl⟩
          split
          · trivial
          · trivial
      | stored out =>
          rw [hpc] at hs hok
          obtain rfl := Option.some.inj hs
          have hout : ∀ b ∈ out, b.source = t := fun b hb => hloc.hand t b (by rw [hpc]; exact hb)
          exact ⟨⟨removed, located_append hloc hpc hok⟩,
            ordered_append hord hpc (fun b hb b' hb' => (hout b hb).trans (hout b' hb').symm) hok⟩
      | appended out position =>
          rw [hpc] at hs hok
          obtain rfl := Option.some.inj hs
          exact ⟨⟨removed, located_send hloc hpc⟩, ordered_send hord hpc hok⟩

/-- No chunk mixes the bytes of two threads, and chunks are handed on in
the order of the scrollback. When all calls have returned, every byte
that was passed in is in the scrollback, in the tail or in a storage OSC,
once, and every chunk was handed on. -/
def Exact (s : Emitter Thread) : Prop :=
  (∀ chunk ∈ s.chunks, OneSource chunk) ∧ s.scrollback = s.chunks.flatten ∧ s.sent <+: s.chunks
    ∧ ((∀ t, s.pc t = .idle) → s.sent = s.chunks ∧ s.inputs.Nodup
      ∧ ∃ removed, (s.scrollback ++ s.tail ++ removed).Perm s.inputs
        ∧ removed.map Byte.value
          = (List.replicate s.storageRequests storageSetupOsc).flatten)

theorem exact_of_kept (hloc : Located s removed) (hord : Ordered s) : Exact s := by
  refine ⟨hord.source, hord.recorded, ?_, fun hidle => ⟨?_, ?_, removed, ?_, hloc.controls⟩⟩
  · rw [hord.sent]
    exact List.take_prefix ..
  · rw [hord.sent]
    refine List.take_of_length_le ?_
    by_contra hlt
    obtain ⟨t, out, ht⟩ := hord.unsent s.sent.length (Nat.le_refl _) (by omega)
    rw [hidle t] at ht
    cases ht
  · refine List.Nodup.of_map Byte.serial ?_
    rw [hloc.serial]
    exact List.nodup_range
  · refine List.perm_iff_count.mpr fun b => ?_
    rw [← hloc.count b, hidle b.source]
    simp [EmitPc.hand]

/-- **Emit is atomic per chunk** in every state that a run of untangled
steps reaches. -/
theorem emit_exact (h : Reach (step maxSize) (Apart maxSize) (start : Emitter Thread) s) :
    Exact s := by
  have hkept := h.invariant (fun s => (∃ removed, Located s removed) ∧ Ordered s)
    ⟨⟨[], located_start⟩, ordered_start⟩ fun _ a _ hinv hok hs => kept_step a hinv hok hs
  obtain ⟨⟨removed, hloc⟩, hord⟩ := hkept
  exact exact_of_kept hloc hord

/-! ## A prefix glued to another thread's output

Thread 0 emits a lone `ESC`, which is held back, and thread 1 emits `A`. -/

def escThenA : List (EmitStep (Fin 2)) :=
  [.call 0 [0x1b], .go 0, .go 0, .go 0, .call 1 [0x41], .go 1, .go 1, .go 1, .go 1, .go 1]

instance (bytes : List (Byte (Fin 2))) : Decidable (OneSource bytes) :=
  inferInstanceAs (Decidable (∀ b ∈ bytes, ∀ b' ∈ bytes, b.source = b'.source))

theorem held_prefix_is_glued :
    ∃ s, Reach (step (2 ^ 20)) Free (start : Emitter (Fin 2)) s ∧ ¬Exact s := by
  obtain ⟨s, hs, hbad⟩ := reach_of_replay
    (p := fun s : Emitter (Fin 2) => decide ¬∀ chunk ∈ s.chunks, OneSource chunk)
    (show (replay (step (2 ^ 20)) Free (start : Emitter (Fin 2)) escThenA).map _ = some true by
      decide)
  exact ⟨s, hs, fun h => of_decide_eq_true hbad h.1⟩

/-- The calls of two threads overlap, and both hold no prefix back. -/
theorem overlapping_emits_exact :
    ∃ s : Emitter (Fin 2), s.sent.length = 2 ∧ Exact s := by
  obtain ⟨s, hs, hsent⟩ := reach_of_replay
    (p := fun s : Emitter (Fin 2) => decide (s.sent.length = 2))
    (show (replay (step (2 ^ 20)) (Apart (2 ^ 20)) (start : Emitter (Fin 2))
      [.call 0 [0x41], .call 1 [0x42], .go 0, .go 1, .go 1, .go 0, .go 0, .go 1, .go 1, .go 0,
        .go 1, .go 0]).map _ = some true by decide)
  exact ⟨s, of_decide_eq_true hsent, emit_exact hs⟩

end Emit

end Emitter

end Zmux
