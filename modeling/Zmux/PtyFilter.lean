import Zmux.Occurrences
import Zmux.PtyEmit

/-!
# The output of a session, chunk by chunk

`_emit` of `pty_session.py` with one thread that calls it. Every chunk is
filtered together with the tail of the chunks before it; what comes out
is appended to the scrollback and handed to the output callback.

`filterPtyControls_splits` connects the filter with the removal of the
storage OSC from a whole stream: what it emits, counts and holds back is
right whatever comes next. `emitAll_exact` is the result for any stream
in any chunks.
-/

namespace Zmux

namespace PtyFilter

/-! ## The filter of one chunk -/

theorem storageSetupOsc_firstOnce : FirstOnce storageSetupOsc :=
  ⟨0x1b, storageSetupOsc.tail, rfl, by decide⟩

theorem findBytes_none {needle : List UInt8} (hneedle : needle ≠ []) : ∀ {data : List UInt8},
    findBytes id needle data = none → ∀ j, ¬ needle <+: data.drop j
  | [], _, j, hstarts => by
      rw [List.drop_nil, List.prefix_nil] at hstarts
      exact hneedle hstarts
  | b :: bs, h, j, hstarts => by
      rw [findBytes, List.map_id] at h
      split at h
      · cases h
      · rename_i hfirst
        cases j with
        | zero => exact hfirst (List.isPrefixOf_iff_prefix.mpr hstarts)
        | succ j => exact findBytes_none hneedle (Option.map_eq_none_iff.mp h) j hstarts

theorem findBytes_first {needle : List UInt8} : ∀ {data : List UInt8} {i : ℕ},
    findBytes id needle data = some i → needle <+: data.drop i ∧
      ∀ j < i, ¬ needle <+: data.drop j
  | [], i, h => by
      rw [findBytes] at h
      split at h
      · rename_i hneedle
        obtain rfl := Option.some.inj h
        rw [hneedle]
        exact ⟨List.nil_prefix, fun j hj => absurd hj (Nat.not_lt_zero j)⟩
      · cases h
  | b :: bs, i, h => by
      rw [findBytes, List.map_id] at h
      split at h
      · rename_i hfirst
        obtain rfl := Option.some.inj h
        exact ⟨List.isPrefixOf_iff_prefix.mp hfirst, fun j hj => absurd hj (Nat.not_lt_zero j)⟩
      · rename_i hfirst
        obtain ⟨k, hk, rfl⟩ := Option.map_eq_some_iff.mp h
        obtain ⟨hat, hbefore⟩ := findBytes_first hk
        refine ⟨hat, fun j hj hstarts => ?_⟩
        cases j with
        | zero => exact hfirst (List.isPrefixOf_iff_prefix.mpr hstarts)
        | succ j => exact hbefore j (Nat.lt_of_succ_lt_succ hj) hstarts

/-- The loop finds the longest suffix that starts the OSC. -/
theorem prefixLoop_spec (data : List UInt8) : ∀ limit,
    prefixLoop id data limit ≤ limit ∧
      (data.drop (data.length - prefixLoop id data limit) = storageSetupOsc.take
        (prefixLoop id data limit) ∨ prefixLoop id data limit = 0) ∧
      ∀ size, prefixLoop id data limit < size → size ≤ limit →
        data.drop (data.length - size) ≠ storageSetupOsc.take size := by
  intro limit
  induction limit with
  | zero => exact ⟨Nat.le_refl 0, Or.inr rfl, fun size hlt hle => absurd hle (Nat.not_le_of_lt hlt)⟩
  | succ limit ih =>
      obtain ⟨hle, heq, hlonger⟩ := ih
      rw [prefixLoop, List.map_id]
      split
      · rename_i hhere
        exact ⟨Nat.le_refl _, Or.inl hhere, fun size hlt hle => absurd hle (Nat.not_le_of_lt hlt)⟩
      · rename_i hhere
        refine ⟨Nat.le_succ_of_le hle, heq, fun size hlt hsize => ?_⟩
        rcases Nat.lt_or_eq_of_le hsize with hsmaller | rfl
        · exact hlonger size hlt (Nat.le_of_lt_succ hsmaller)
        · exact hhere

/-- Nothing in front of the suffix that is kept is in an OSC, whatever
comes next. -/
theorem splits_keep {data : List UInt8} (hnone : ∀ j, ¬ storageSetupOsc <+: data.drop j) :
    let keep := possibleControlPrefix id data
    Splits storageSetupOsc data (data.take (data.length - keep)) 0
      (data.drop (data.length - keep)) := by
  intro keep
  have hlimit : keep ≤ min data.length (storageSetupOsc.length - 1) :=
    (prefixLoop_spec data _).1
  refine splits_skip (Nat.sub_le ..) fun more j hj hstarts => ?_
  rw [List.drop_append_of_le_length (by omega)] at hstarts
  by_cases hfits : storageSetupOsc.length ≤ (data.drop j).length
  · exact hnone j (List.prefix_of_prefix_length_le hstarts (List.prefix_append ..) hfits)
  · -- the OSC starts in `data` and ends after it
    have hstart : data.drop j <+: storageSetupOsc :=
      List.prefix_of_prefix_length_le (List.prefix_append ..) hstarts (by omega)
    have hsize := List.prefix_iff_eq_take.mp hstart
    rw [List.length_drop] at hfits hsize
    have hlonger := (prefixLoop_spec data (min data.length (storageSetupOsc.length - 1))).2.2
      (data.length - j) (by change keep < _; omega) (by omega)
    rw [Nat.sub_sub_self (by omega)] at hlonger
    exact hlonger hsize

/-- The suffix that is kept is the start of an OSC and no whole one. -/
theorem possibleControlPrefix_prefix (data : List UInt8) :
    let keep := possibleControlPrefix id data
    data.drop (data.length - keep) <+: storageSetupOsc ∧
      (data.drop (data.length - keep)).length < storageSetupOsc.length := by
  intro keep
  obtain ⟨hle, heq, -⟩ := prefixLoop_spec data (min data.length (storageSetupOsc.length - 1))
  have hlimit : keep ≤ min data.length (storageSetupOsc.length - 1) := hle
  have hosc : 0 < storageSetupOsc.length := by decide
  constructor
  · rcases heq with heq | hzero
    · change data.drop (data.length - keep) = _ at heq
      rw [heq]
      exact List.take_prefix ..
    · have hkeep : keep = 0 := hzero
      rw [hkeep, Nat.sub_zero, List.drop_length]
      exact List.nil_prefix
  · rw [List.length_drop]
    omega

/-- The start of an OSC, without its end. -/
def Partial (tail : List UInt8) : Prop :=
  tail <+: storageSetupOsc ∧ tail.length < storageSetupOsc.length

theorem partial_nil : Partial [] := ⟨List.nil_prefix, by decide⟩

theorem filterLoop_splits : ∀ (turns : ℕ) (pending : List UInt8), pending.length < turns →
    Splits storageSetupOsc pending (filterLoop id turns pending).1
        (filterLoop id turns pending).2.2 (filterLoop id turns pending).2.1 ∧
      Partial (filterLoop id turns pending).2.1
  | 0, pending, hturns => absurd hturns (Nat.not_lt_zero _)
  | turns + 1, pending, hturns => by
      rw [filterLoop]
      split
      · rename_i hempty
        rw [List.isEmpty_iff.mp hempty]
        exact ⟨Splits.refl [], partial_nil⟩
      · split
        · rename_i i hfind
          obtain ⟨⟨rest, hat⟩, hbefore⟩ := findBytes_first hfind
          have hosc : 0 < storageSetupOsc.length := by decide
          have hlength : i + storageSetupOsc.length + rest.length = pending.length := by
            have hsum := congrArg List.length hat
            rw [List.length_append, List.length_drop] at hsum
            omega
          have hrest : pending.drop (i + storageSetupOsc.length) = rest := by
            rw [← List.drop_drop, ← hat, List.drop_left]
          have hskip : Splits storageSetupOsc pending (pending.take i) 0 (pending.drop i) := by
            refine splits_skip (by omega) fun more j hj hstarts => hbefore j hj ?_
            rw [List.drop_append_of_le_length (by omega)] at hstarts
            refine List.prefix_of_prefix_length_le hstarts (List.prefix_append ..) ?_
            rw [List.length_drop]
            omega
          have hhit : Splits storageSetupOsc (pending.drop i) [] 1 rest := by
            rw [← hat]
            exact splits_hit storageSetupOsc_firstOnce rest
          obtain ⟨hloop, htail⟩ := filterLoop_splits turns rest (by omega)
          dsimp only
          rw [hrest]
          have hall := hskip.trans (hhit.trans hloop)
          rw [List.nil_append, Nat.zero_add, Nat.add_comm] at hall
          exact ⟨hall, htail⟩
        · rename_i hfind
          have hosc : storageSetupOsc ≠ [] := by decide
          have hkeep := splits_keep (findBytes_none hosc hfind)
          have htail := possibleControlPrefix_prefix pending
          dsimp only at hkeep htail ⊢
          split
          · exact ⟨hkeep, htail⟩
          · rename_i hzero
            rw [not_not.mp hzero, Nat.sub_zero, List.take_length, List.drop_length] at hkeep
            exact ⟨hkeep, partial_nil⟩

/-- **One chunk**: what is emitted, counted and held back is right for the
old tail and the chunk, whatever comes next. -/
theorem filterPtyControls_splits (pending : List UInt8) :
    Splits storageSetupOsc pending (filterPtyControls id pending).1
        (filterPtyControls id pending).2.2 (filterPtyControls id pending).2.1 ∧
      Partial (filterPtyControls id pending).2.1 :=
  filterLoop_splits _ pending (Nat.lt_succ_self _)

/-! ## Any chunks -/

/-- `emitted` is what was handed to `_emit_output`, all in all. -/
structure Output where
  tail : List UInt8
  storageRequests : ℕ
  scrollback : List UInt8
  emitted : List UInt8
deriving DecidableEq

def Output.start : Output where
  tail := []
  storageRequests := 0
  scrollback := []
  emitted := []

/-- `scrollback_max_size`. -/
def scrollbackMaxSize : ℕ := 2 ^ 20

/-- `_emit`. -/
def emit (s : Output) (data : List UInt8) : Output :=
  let (out, tail, controls) := filterPtyControls id (s.tail ++ data)
  let s := { s with tail := tail, storageRequests := s.storageRequests + controls }
  if out.isEmpty then s
  else { s with
    scrollback := recordScrollback scrollbackMaxSize s.scrollback out
    emitted := s.emitted ++ out }

def emitAll (chunks : List (List UInt8)) : Output := chunks.foldl emit .start

/-- The last `size` bytes. -/
def lastBytes (size : ℕ) (data : List UInt8) : List UInt8 := data.drop (data.length - size)

theorem recordScrollback_lastBytes (size : ℕ) (data out : List UInt8) :
    recordScrollback size (lastBytes size data) out = lastBytes size (data ++ out) := by
  unfold recordScrollback lastBytes
  rw [← List.drop_append_of_le_length (Nat.sub_le ..), List.drop_drop, List.length_drop,
    List.length_append]
  congr 1
  omega

/-- What holds after the bytes `seen`. -/
structure Exact (s : Output) (seen : List UInt8) : Prop where
  splits : Splits storageSetupOsc seen s.emitted s.storageRequests s.tail
  tail : Partial s.tail
  scrollback : s.scrollback = lastBytes scrollbackMaxSize s.emitted

theorem exact_start : Exact .start [] where
  splits := Splits.refl []
  tail := partial_nil
  scrollback := rfl

theorem Exact.emit {s : Output} {seen : List UInt8} (h : Exact s seen) (data : List UInt8) :
    Exact (emit s data) (seen ++ data) := by
  obtain ⟨hchunk, htail⟩ := filterPtyControls_splits (s.tail ++ data)
  have hsplits := (h.splits.append data).trans hchunk
  rw [PtyFilter.emit]
  dsimp only
  split
  · rename_i hempty
    rw [List.isEmpty_iff.mp hempty, List.append_nil] at hsplits
    exact ⟨hsplits, htail, h.scrollback⟩
  · refine ⟨hsplits, htail, ?_⟩
    rw [h.scrollback, recordScrollback_lastBytes]

theorem exact_emitAll (chunks : List (List UInt8)) : ∀ {s : Output} {seen : List UInt8},
    Exact s seen → Exact (chunks.foldl PtyFilter.emit s) (seen ++ chunks.flatten) := by
  induction chunks with
  | nil =>
      intro s seen h
      rw [List.flatten_nil, List.append_nil]
      exact h
  | cons data chunks ih =>
      intro s seen h
      rw [List.foldl_cons, List.flatten_cons, ← List.append_assoc]
      exact ih (h.emit data)

/-- **The output of a session**, for any stream in any chunks: all bytes but
those of the storage OSCs, which are counted, with a tail that can only be
the start of one, and the last mebibyte in the scrollback. -/
theorem emitAll_exact (chunks : List (List UInt8)) :
    (emitAll chunks).emitted ++ (emitAll chunks).tail = without storageSetupOsc chunks.flatten ∧
      (emitAll chunks).storageRequests = occurrences storageSetupOsc chunks.flatten ∧
      (emitAll chunks).tail <+: storageSetupOsc ∧ (emitAll chunks).tail ≠ storageSetupOsc ∧
      (emitAll chunks).scrollback = (emitAll chunks).emitted.drop
        ((emitAll chunks).emitted.length - 2 ^ 20) := by
  have hexact : Exact (emitAll chunks) ([] ++ chunks.flatten) := exact_emitAll chunks exact_start
  obtain ⟨hsplits, ⟨hstarts, hshort⟩, hscrollback⟩ := hexact
  obtain ⟨hout, hcount⟩ := hsplits []
  obtain ⟨htail, hnone⟩ := without_short hshort
  rw [List.append_nil, List.append_nil, List.nil_append] at hout hcount
  rw [htail] at hout
  rw [hnone, Nat.add_zero] at hcount
  refine ⟨hout.symm, hcount.symm, hstarts, fun h => ?_, hscrollback⟩
  rw [h] at hshort
  exact Nat.lt_irrefl _ hshort

end PtyFilter

end Zmux
