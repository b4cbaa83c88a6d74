import Mathlib.Data.List.Induction
import Mathlib.Data.List.Infix
import Mathlib.Data.List.TakeWhile
import Mathlib.Data.Nat.Find
import Zmux.PtyFilter

/-!
# Prompts on a fresh line

`_emit` of `pty_session.py` keeps a flag, `_at_line_start`, up to date
from what each chunk shows behind the control filter, and `_emit_prompt`
starts a new line where the flag is not set.

The flag looks at one chunk at a time: at a clear sequence anywhere in it,
a home sequence or a line feed at its end, or a carriage return, which
leaves it as it was.
-/

namespace Zmux

namespace PtyFilter

/-! ## The filter in steps -/

/-- What the filter lets through of a stream, and the tail that it keeps. -/
def shown (data : List UInt8) : List UInt8 := (filterPtyControls id data).1

def kept (data : List UInt8) : List UInt8 := (filterPtyControls id data).2.1

variable {data more out out' tail tail' d : List UInt8} {n n' : ℕ}

theorem partial_kept (data : List UInt8) : Partial (kept data) := (filterPtyControls_splits data).2

theorem eq_nil_of_splits (h : Splits storageSetupOsc data out n tail) (htail : Partial tail)
    (h' : Splits storageSetupOsc data (out ++ d) n' tail') : d = [] := by
  -- the rest of the OSC comes: nothing of the tail is let through
  obtain ⟨rest, hosc⟩ := htail.1
  have hnone : without storageSetupOsc (tail ++ rest) = [] := by
    rw [hosc]
    decide
  have heq := (h rest).1.symm.trans (h' rest).1
  rw [hnone, List.append_nil, List.append_assoc] at heq
  have hempty := List.append_cancel_left ((List.append_nil out).trans heq)
  exact (List.append_eq_nil_iff.mp hempty.symm).1

/-- What is let through and what is kept depend on the stream alone. -/
theorem splits_unique (h : Splits storageSetupOsc data out n tail) (htail : Partial tail)
    (h' : Splits storageSetupOsc data out' n' tail') (htail' : Partial tail') :
    out = out' ∧ tail = tail' := by
  have heq := (h []).1.symm.trans (h' []).1
  rw [List.append_nil, List.append_nil, (without_short htail.2).1,
    (without_short htail'.2).1] at heq
  rcases List.append_eq_append_iff.mp heq with ⟨d, rfl, rfl⟩ | ⟨d, rfl, rfl⟩
  · rw [eq_nil_of_splits h htail h', List.append_nil]
    exact ⟨rfl, rfl⟩
  · rw [eq_nil_of_splits h' htail' h, List.append_nil]
    exact ⟨rfl, rfl⟩

theorem shown_eq (h : Splits storageSetupOsc data out n tail) (htail : Partial tail) :
    shown data = out ∧ kept data = tail :=
  splits_unique (filterPtyControls_splits data).1 (partial_kept data) h htail

theorem filter_append (data more : List UInt8) :
    shown (data ++ more) = shown data ++ shown (kept data ++ more)
      ∧ kept (data ++ more) = kept (kept data ++ more) :=
  shown_eq (((filterPtyControls_splits data).1.append more).trans
    (filterPtyControls_splits (kept data ++ more)).1) (partial_kept _)

/-- An OSC starts with an escape, and has no other. -/
theorem not_starts {j : ℕ} (h : data[j]? ≠ some 0x1b) : ¬ storageSetupOsc <+: data.drop j := by
  rintro ⟨rest, hrest⟩
  have hfirst : (data.drop j)[0]? = some 0x1b := by
    rw [← hrest]
    rfl
  rw [List.getElem?_drop] at hfirst
  exact h hfirst

theorem Partial.getElem?_ne (h : Partial tail) {j : ℕ} (hj : j + 1 < tail.length) :
    tail[j + 1]? ≠ some 0x1b := by
  intro hescape
  have hosc : storageSetupOsc[j + 1]? = some 0x1b := by
    obtain ⟨rest, hrest⟩ := h.1
    rw [← hrest, List.getElem?_append_left hj, hescape]
  have hmem : (0x1b : UInt8) ∈ storageSetupOsc.tail := List.mem_of_getElem? hosc
  exact absurd hmem (by decide)

/-- One byte behind a kept tail: it completes the OSC, or goes on with it,
or breaks it off. -/
theorem filter_byte (htail : Partial tail) (b : UInt8) :
    (tail ++ [b] = storageSetupOsc ∧ shown (tail ++ [b]) = [] ∧ kept (tail ++ [b]) = [])
      ∨ (Partial (tail ++ [b]) ∧ shown (tail ++ [b]) = [] ∧ kept (tail ++ [b]) = tail ++ [b])
      ∨ (b = 0x1b ∧ shown (tail ++ [b]) = tail ∧ kept (tail ++ [b]) = [b])
      ∨ (b ≠ 0x1b ∧ shown (tail ++ [b]) = tail ++ [b] ∧ kept (tail ++ [b]) = []) := by
  have hlength : (tail ++ [b]).length ≤ storageSetupOsc.length := by
    rw [List.length_append]
    exact htail.2
  by_cases hbegun : tail ++ [b] <+: storageSetupOsc
  · rcases hlength.lt_or_eq with hlt | heq
    · exact Or.inr (Or.inl ⟨⟨hbegun, hlt⟩, shown_eq (Splits.refl _) ⟨hbegun, hlt⟩⟩)
    · have hosc := hbegun.eq_of_length heq
      refine Or.inl ⟨hosc, ?_⟩
      rw [hosc]
      have hhit := splits_hit storageSetupOsc_firstOnce []
      rw [List.append_nil] at hhit
      exact shown_eq hhit partial_nil
  · have hinside : ∀ more, ∀ j < tail.length,
        ¬ storageSetupOsc <+: (tail ++ [b] ++ more).drop j := by
      intro more j hj
      cases j with
      | zero =>
          intro h
          exact hbegun (List.prefix_of_prefix_length_le (List.prefix_append ..) h hlength)
      | succ j =>
          refine not_starts ?_
          rw [List.append_assoc, List.getElem?_append_left hj]
          exact htail.getElem?_ne hj
    by_cases hb : b = 0x1b
    · refine Or.inr (Or.inr (Or.inl ⟨hb, ?_⟩))
      have hskip := splits_skip (i := tail.length) (by simp) hinside
      rw [List.take_left, List.drop_left] at hskip
      refine shown_eq hskip ?_
      rw [hb]
      exact ⟨by decide, by decide⟩
    · refine Or.inr (Or.inr (Or.inr ⟨hb, ?_⟩))
      have hskip := splits_skip (i := (tail ++ [b]).length) (Nat.le_refl _) fun more j hj => by
        rw [List.length_append, List.length_singleton] at hj
        rcases Nat.lt_or_eq_of_le (Nat.le_of_lt_succ hj) with h | rfl
        · exact hinside more j h
        · refine not_starts ?_
          simpa using hb
      rw [List.take_length, List.drop_length] at hskip
      exact shown_eq hskip partial_nil

/-- One byte more of a stream. -/
theorem shown_byte (data : List UInt8) (b : UInt8) :
    shown (data ++ [b]) = shown data
      ∨ (b = 0x1b ∧ shown (data ++ [b]) = shown data ++ kept data)
      ∨ (shown (data ++ [b]) = shown data ++ (kept data ++ [b]) ∧ kept (data ++ [b]) = []) := by
  obtain ⟨hshown, hkept⟩ := filter_append data [b]
  rcases filter_byte (partial_kept data) b with ⟨-, h, -⟩ | ⟨-, h, -⟩ | ⟨hb, h, -⟩ | ⟨-, h, hk⟩
  · exact Or.inl (by rw [hshown, h, List.append_nil])
  · exact Or.inl (by rw [hshown, h, List.append_nil])
  · exact Or.inr (Or.inl ⟨hb, by rw [hshown, h]⟩)
  · exact Or.inr (Or.inr ⟨by rw [hshown, h], hkept.trans hk⟩)

/-- A byte that is in no OSC breaks one off. -/
theorem filter_break {b : UInt8} (hb : b ∉ storageSetupOsc) (data : List UInt8) :
    shown (data ++ [b]) = shown data ++ (kept data ++ [b]) ∧ kept (data ++ [b]) = [] := by
  obtain ⟨hshown, hkept⟩ := filter_append data [b]
  rcases filter_byte (partial_kept data) b with ⟨h, -⟩ | ⟨h, -⟩ | ⟨rfl, -⟩ | ⟨-, h, hk⟩
  · exact absurd (h ▸ List.mem_append_right _ List.mem_cons_self) hb
  · exact absurd (h.1.subset (List.mem_append_right _ List.mem_cons_self)) hb
  · exact absurd (by decide) hb
  · exact ⟨by rw [hshown, h], hkept.trans hk⟩

theorem without_eq (data : List UInt8) :
    without storageSetupOsc data = shown data ++ kept data := by
  have htail : without storageSetupOsc (kept data) = kept data :=
    (without_short (partial_kept data).2).1
  have heq := ((filterPtyControls_splits data).1 []).1
  rw [List.append_nil, List.append_nil] at heq
  rw [← htail]
  exact heq

/-- Without the end of an OSC, all is let through or kept. -/
theorem shown_kept_of_notMem (h : (0x07 : UInt8) ∉ data) : shown data ++ kept data = data := by
  have hnone : ∀ j < data.length, ¬ storageSetupOsc <+: data.drop j := fun j _ hstarts =>
    h (List.mem_of_mem_drop (hstarts.subset (by decide)))
  have hall := (without_skip data (Nat.le_refl _) hnone).1
  rw [List.take_length, List.drop_length] at hall
  exact (without_eq data).symm.trans (hall.trans (List.append_nil _))

theorem bel_notMem_kept (data : List UInt8) : (0x07 : UInt8) ∉ kept data := by
  intro hmem
  obtain ⟨hbegun, hlt⟩ := partial_kept data
  have hshort : kept data <+: storageSetupOsc.dropLast := by
    refine List.prefix_of_prefix_length_le hbegun (List.dropLast_prefix _) ?_
    rw [List.length_dropLast]
    omega
  exact absurd (hshort.subset hmem) (by decide)

/-- A text with a byte of no OSC at its end is let through, with the tail
that is kept before it. -/
theorem filter_text {head : List UInt8} {x : UInt8} (hx : x ∉ storageSetupOsc)
    (hbel : (0x07 : UInt8) ∉ head ++ [x]) (data : List UInt8) :
    shown (data ++ (head ++ [x])) = shown data ++ (kept data ++ (head ++ [x]))
      ∧ kept (data ++ (head ++ [x])) = [] := by
  obtain ⟨hshown, hkept⟩ := filter_append data (head ++ [x])
  have hnone : (0x07 : UInt8) ∉ kept data ++ (head ++ [x]) := fun h =>
    (List.mem_append.mp h).elim (bel_notMem_kept data) hbel
  have hall := shown_kept_of_notMem hnone
  have hbreak := (filter_break hx (kept data ++ head)).2
  rw [List.append_assoc] at hbreak
  rw [hbreak, List.append_nil] at hall
  exact ⟨by rw [hshown, hall], hkept.trans hbreak⟩

theorem emit_output (o : Output) (data : List UInt8) :
    (emit o data).emitted = o.emitted ++ shown (o.tail ++ data)
      ∧ (emit o data).tail = kept (o.tail ++ data) := by
  unfold emit shown kept
  dsimp only
  split
  · rename_i hempty
    rw [List.isEmpty_iff.mp hempty, List.append_nil]
    exact ⟨rfl, rfl⟩
  · exact ⟨rfl, rfl⟩

end PtyFilter

open PtyFilter

namespace FreshLine

/-! ## The flag -/

def cr : UInt8 := 0x0d

def lf : UInt8 := 0x0a

/-- `ESC [2J`. -/
def clearScreen : List UInt8 := [0x1b, 0x5b, 0x32, 0x4a]

/-- `ESC [H`. -/
def home : List UInt8 := [0x1b, 0x5b, 0x48]

/-- `_at_line_start` after `data`, which is not empty. -/
def lineStartAfter (atLineStart : Bool) (data : List UInt8) : Bool :=
  if clearScreen <:+: data ∨ home <:+ data then true
  else if data.getLast? = some lf then true
  else if data.getLast? ≠ some cr then false
  else atLineStart

structure Session where
  output : PtyFilter.Output
  atLineStart : Bool
deriving DecidableEq

def Session.new : Session := ⟨.start, true⟩

/-- `_emit`. -/
def emit (s : Session) (data : List UInt8) : Session :=
  let out := (filterPtyControls id (s.output.tail ++ data)).1
  { output := PtyFilter.emit s.output data
    atLineStart := if out.isEmpty then s.atLineStart else lineStartAfter s.atLineStart out }

def emitAll (s : Session) (chunks : List (List UInt8)) : Session := chunks.foldl emit s

inductive Prompt where
  | repl
  | host (cwd : List UInt8)
  | setup
deriving DecidableEq

def ascii (text : String) : List UInt8 := text.toList.map fun c => c.toNat.toUInt8

/-- The prompt of `_prompt`, encoded, or that of `_emit_setup_prompt`. -/
def Prompt.text : Prompt → List UInt8
  | .repl => ascii ">>> "
  | .host cwd => ascii "zmux:" ++ cwd ++ ascii "$ "
  | .setup => ascii "alpine-setup> "

/-- `_emit_prompt` and `_emit_setup_prompt`. -/
def emitPrompt (prompt : Prompt) (s : Session) : Session :=
  let s := if s.atLineStart then s else emit s [cr, lf]
  emit s prompt.text

/-! ## What is asked of a prompt -/

/-- A byte of a character that shows. -/
def printable (b : UInt8) : Bool := 0x20 ≤ b && b ≠ 0x7f

/-- The text ends on a fresh line: behind its start, a line feed, or a clear
or home sequence, no byte in it is printable. -/
def Fresh (text : List UInt8) : Prop :=
  ∃ n ≤ text.length, (n = 0 ∨ [lf] <:+ text.take n ∨ clearScreen <:+ text.take n
      ∨ home <:+ text.take n)
    ∧ ∀ b ∈ text.drop n, printable b = false

instance (text : List UInt8) : Decidable (Fresh text) :=
  inferInstanceAs (Decidable (∃ n ≤ text.length, _))

/-- The prompt comes on a fresh line, and whether a line feed is put in
front of it is a matter of the stream, not of the chunks. -/
def PromptFresh (prompt : Prompt) (chunks : List (List UInt8)) : Prop :=
  (∃ front, (emitPrompt prompt (emitAll .new chunks)).output.emitted
      = front ++ without storageSetupOsc prompt.text ∧ Fresh front)
    ∧ ∀ chunks' : List (List UInt8), chunks'.flatten = chunks.flatten →
      (emitAll .new chunks').atLineStart = (emitAll .new chunks).atLineStart

/-! ## The condition -/

/-- The last line, as it is shown, does not end: the flag is not set. -/
def Unfinished (text : List UInt8) : Prop :=
  (∃ b, text.getLast? = some b ∧ b ≠ lf ∧ b ≠ cr) ∧ ¬ clearScreen <:+: text ∧ ¬ home <:+ text

/-- Nothing but line ends is shown, at any time. -/
def OnlyEnds (stream : List UInt8) : Prop :=
  ∀ n ≤ stream.length, ∀ b ∈ (shown (stream.take n)).getLast?, b = lf ∨ b = cr

/-- No printable byte behind the last line feed. -/
def NothingSince (text : List UInt8) : Prop :=
  ∀ b ∈ text.reverse.takeWhile (· ≠ lf), printable b = false

def Steady (stream : List UInt8) : Prop :=
  Unfinished (shown stream)
    ∨ ((shown stream).getLast? = some lf ∨ OnlyEnds stream)
      ∧ NothingSince (shown stream ++ kept stream)

/-! ## Chunks -/

variable {s : Session} {seen stream : List UInt8} {chunks : List (List UInt8)}

/-- The session has emitted what is shown of the bytes `seen`. -/
structure Seen (s : Session) (seen : List UInt8) : Prop where
  emitted : s.output.emitted = shown seen
  tail : s.output.tail = kept seen

theorem Seen.emit (h : Seen s seen) (data : List UInt8) :
    Seen (emit s data) (seen ++ data)
      ∧ (FreshLine.emit s data).atLineStart
        = if shown (kept seen ++ data) = [] then s.atLineStart
          else lineStartAfter s.atLineStart (shown (kept seen ++ data)) := by
  obtain ⟨hshown, hkept⟩ := filter_append seen data
  obtain ⟨hemitted, htail⟩ := emit_output s.output data
  rw [h.tail] at hemitted htail
  refine ⟨⟨?_, htail.trans hkept.symm⟩, ?_⟩
  · rw [hshown, ← h.emitted]
    exact hemitted
  · rw [FreshLine.emit, h.tail]
    by_cases hempty : shown (kept seen ++ data) = []
    · rw [if_pos hempty]
      exact if_pos (List.isEmpty_iff.mpr hempty)
    · rw [if_neg hempty]
      exact if_neg fun h => hempty (List.isEmpty_iff.mp h)

theorem emitAll_snoc (s : Session) (chunks : List (List UInt8)) (data : List UInt8) :
    emitAll s (chunks ++ [data]) = emit (emitAll s chunks) data := List.foldl_concat ..

theorem flatten_snoc (chunks : List (List UInt8)) (data : List UInt8) :
    (chunks ++ [data]).flatten = chunks.flatten ++ data := by
  rw [List.flatten_append, List.flatten_singleton]

theorem seen_new : Seen .new [] := ⟨rfl, rfl⟩

theorem seen_emitAll (chunks : List (List UInt8)) : Seen (emitAll .new chunks) chunks.flatten := by
  induction chunks using List.reverseRecOn with
  | nil => exact seen_new
  | append_singleton chunks data ih =>
      rw [emitAll_snoc, flatten_snoc]
      exact (ih.emit data).1

/-- The last chunk: nothing new is shown, or the flag is that of what is. -/
theorem atLineStart_snoc (chunks : List (List UInt8)) (data : List UInt8) :
    (shown (chunks.flatten ++ data) = shown chunks.flatten
        ∧ (emitAll .new (chunks ++ [data])).atLineStart = (emitAll .new chunks).atLineStart)
      ∨ ∃ out, out ≠ [] ∧ shown (chunks.flatten ++ data) = shown chunks.flatten ++ out
        ∧ (emitAll .new (chunks ++ [data])).atLineStart
          = lineStartAfter (emitAll .new chunks).atLineStart out := by
  have hflag := ((seen_emitAll chunks).emit data).2
  have hshown := (filter_append chunks.flatten data).1
  rw [← emitAll_snoc] at hflag
  by_cases hempty : shown (kept chunks.flatten ++ data) = []
  · rw [if_pos hempty] at hflag
    rw [hempty, List.append_nil] at hshown
    exact Or.inl ⟨hshown, hflag⟩
  · rw [if_neg hempty] at hflag
    exact Or.inr ⟨_, hempty, hshown, hflag⟩

theorem lineStartAfter_lf {flag : Bool} {out : List UInt8} (h : out.getLast? = some lf) :
    lineStartAfter flag out = true := by
  rw [lineStartAfter, if_pos h]
  exact ite_self _

theorem lineStartAfter_unfinished {flag : Bool} {out : List UInt8} (h : Unfinished out) :
    lineStartAfter flag out = false := by
  obtain ⟨⟨b, hb, hlf, hcr⟩, hclear, hhome⟩ := h
  rw [lineStartAfter, if_neg (not_or.mpr ⟨hclear, hhome⟩), hb,
    if_neg fun heq => hlf (Option.some.inj heq), if_pos fun heq => hcr (Option.some.inj heq)]

/-- The flag is that of the last chunk that shows anything. -/
theorem atLineStart_last (chunks : List (List UInt8)) :
    (shown chunks.flatten = [] ∧ (emitAll .new chunks).atLineStart = true)
      ∨ ∃ front out flag, out ≠ [] ∧ shown chunks.flatten = front ++ out
        ∧ (emitAll .new chunks).atLineStart = lineStartAfter flag out := by
  induction chunks using List.reverseRecOn with
  | nil => exact Or.inl ⟨rfl, rfl⟩
  | append_singleton chunks data ih =>
      rw [flatten_snoc]
      rcases atLineStart_snoc chunks data with ⟨hshown, hflag⟩ | ⟨out, hne, hshown, hflag⟩
      · rw [hshown, hflag]
        exact ih
      · exact Or.inr ⟨_, out, _, hne, hshown, hflag⟩

/-- A stream that ends in a line feed sets the flag. -/
theorem atLineStart_of_lf (h : (shown chunks.flatten).getLast? = some lf) :
    (emitAll .new chunks).atLineStart = true := by
  rcases atLineStart_last chunks with ⟨-, hflag⟩ | ⟨front, out, flag, hne, hshown, hflag⟩
  · exact hflag
  · rw [hshown, List.getLast?_append_of_ne_nil _ hne] at h
    rw [hflag]
    exact lineStartAfter_lf h

/-- An unfinished line clears it. -/
theorem atLineStart_of_unfinished (h : Unfinished (shown chunks.flatten)) :
    (emitAll .new chunks).atLineStart = false := by
  obtain ⟨⟨b, hb, hends⟩, hclear, hhome⟩ := h
  rcases atLineStart_last chunks with ⟨hempty, -⟩ | ⟨front, out, flag, hne, hshown, hflag⟩
  · rw [hempty] at hb
    cases hb
  · rw [hshown, List.getLast?_append_of_ne_nil _ hne] at hb
    rw [hshown] at hclear hhome
    rw [hflag]
    exact lineStartAfter_unfinished ⟨⟨b, hb, hends⟩,
      fun h => hclear (h.trans (List.suffix_append _ _).isInfix),
      fun h => hhome (h.trans (List.suffix_append _ _))⟩

/-- Line ends alone never clear it. -/
theorem atLineStart_of_onlyEnds (h : OnlyEnds chunks.flatten) :
    (emitAll .new chunks).atLineStart = true := by
  induction chunks using List.reverseRecOn with
  | nil => rfl
  | append_singleton chunks data ih =>
      rw [flatten_snoc] at h
      have hbefore : OnlyEnds chunks.flatten := by
        intro n hn
        have hlater := h n (by rw [List.length_append]; omega)
        rwa [List.take_append_of_le_length hn] at hlater
      rcases atLineStart_snoc chunks data with ⟨hshown, hflag⟩ | ⟨out, hne, hshown, hflag⟩
      · rw [hflag]
        exact ih hbefore
      · have hall := h _ (Nat.le_refl _)
        rw [List.take_length, hshown, List.getLast?_append_of_ne_nil _ hne] at hall
        rw [hflag, ih hbefore]
        obtain ⟨b, hb⟩ := Option.ne_none_iff_exists'.mp
          fun hnone => hne (List.getLast?_eq_none_iff.mp hnone)
        rcases hall b hb with rfl | rfl
        · exact lineStartAfter_lf hb
        · rw [lineStartAfter, hb]
          split
          · rfl
          · rw [if_neg (by decide), if_neg (by decide)]

/-! ## Other chunks -/

/-- A clear or home sequence is not shown in one byte and the tail before it. -/
theorem bracket_mem {before after mark tail : List UInt8} {b : UInt8}
    (h : before ++ mark ++ after = tail ++ [b]) (hmark : 0x5b ∈ mark.dropLast) :
    0x5b ∈ tail := by
  have htail : tail = (before ++ mark ++ after).dropLast := by
    rw [h, List.dropLast_concat]
  rw [htail]
  cases after with
  | nil =>
      have hne : mark ≠ [] := fun heq => by
        rw [heq] at hmark
        cases hmark
      rw [List.append_nil, List.dropLast_append_of_ne_nil hne]
      exact List.mem_append_right _ hmark
  | cons c after =>
      rw [List.dropLast_append_of_ne_nil (List.cons_ne_nil _ _)]
      exact List.mem_append_left _ (List.mem_append_right _ ((List.dropLast_prefix _).subset hmark))

theorem bracket_notMem_kept (data : List UInt8) : 0x5b ∉ kept data := fun h =>
  absurd ((partial_kept data).1.subset h) (by decide)

/-- The stream byte by byte: an unfinished line clears the flag. -/
theorem atLineStart_bytes {b : UInt8} (hb : (shown stream).getLast? = some b) (hlf : b ≠ lf)
    (hcr : b ≠ cr) : (emitAll .new (stream.map fun b => [b])).atLineStart = false := by
  induction stream using List.reverseRecOn with
  | nil => cases hb
  | append_singleton stream c ih =>
      have hflatten : (stream.map fun b => [b]).flatten = stream := by
        rw [← List.flatMap_def, List.flatMap_singleton']
      have hlast := atLineStart_snoc (stream.map fun b => [b]) [c]
      rw [hflatten] at hlast
      rw [List.map_append, List.map_singleton]
      rcases hlast with ⟨hshown, hflag⟩ | ⟨out, hne, hshown, hflag⟩
      · rw [hflag]
        exact ih (hshown ▸ hb)
      · have hout : ∃ tail c', out = tail ++ [c'] ∧ 0x5b ∉ tail := by
          rcases shown_byte stream c with h | ⟨-, h⟩ | ⟨h, -⟩
          · exact absurd (List.append_cancel_left
              ((List.append_nil _).trans (h.symm.trans hshown)).symm) hne
          · have heq := List.append_cancel_left (h.symm.trans hshown)
            refine ⟨out.dropLast, out.getLast hne, (List.dropLast_concat_getLast hne).symm,
              fun hmem => bracket_notMem_kept stream ?_⟩
            rw [heq]
            exact (List.dropLast_prefix _).subset hmem
          · exact ⟨kept stream, c, (List.append_cancel_left (h.symm.trans hshown)).symm,
              bracket_notMem_kept stream⟩
        obtain ⟨tail, c', rfl, htail⟩ := hout
        rw [hshown, List.getLast?_append_of_ne_nil _ hne] at hb
        rw [hflag]
        refine lineStartAfter_unfinished ⟨⟨b, hb, hlf, hcr⟩, ?_, ?_⟩
        · rintro ⟨before, after, heq⟩
          exact htail (bracket_mem heq (by decide))
        · rintro ⟨before, heq⟩
          exact htail (bracket_mem ((List.append_nil _).trans heq) (by decide))

/-- A byte that is in no OSC is shown as soon as it comes. -/
theorem exists_take {x : UInt8} (hx : x ∉ storageSetupOsc) {front back : List UInt8}
    (h : shown stream = front ++ [x] ++ back) :
    ∃ n ≤ stream.length, shown (stream.take n) = front ++ [x] := by
  induction stream using List.reverseRecOn generalizing back with
  | nil =>
      have hlength := congrArg List.length h
      simp [shown, filterPtyControls, filterLoop] at hlength
  | append_singleton stream b ih =>
      have hearlier : ∀ {back}, shown stream = front ++ [x] ++ back →
          ∃ n ≤ (stream ++ [b]).length, shown ((stream ++ [b]).take n) = front ++ [x] := by
        intro back heq
        obtain ⟨n, hn, htake⟩ := ih heq
        exact ⟨n, by rw [List.length_append]; omega,
          by rw [List.take_append_of_le_length hn, htake]⟩
      have hkept : x ∉ kept stream := fun hmem => hx ((partial_kept stream).1.subset hmem)
      obtain ⟨new, hnew, hpiece⟩ : ∃ new, shown (stream ++ [b]) = shown stream ++ new
          ∧ new <+: kept stream ++ [b] := by
        rcases shown_byte stream b with h | ⟨-, h⟩ | ⟨h, -⟩
        · exact ⟨[], h.trans (List.append_nil _).symm, List.nil_prefix⟩
        · exact ⟨_, h, List.prefix_append ..⟩
        · exact ⟨_, h, List.prefix_refl _⟩
      rcases List.append_eq_append_iff.mp (h.symm.trans hnew) with ⟨d, hd, -⟩ | ⟨d, hd, hback⟩
      · exact hearlier hd
      · rcases List.eq_nil_or_concat d with rfl | ⟨d', c, rfl⟩
        · refine @hearlier [] ?_
          rw [List.append_nil, hd, List.append_nil]
        · -- the byte is shown with the last one of the stream, so it is that one
          rw [List.concat_eq_append] at hd hback
          have hc : c = x := by
            rw [← List.append_assoc] at hd
            exact (List.singleton_inj.mp (List.append_inj_right' hd rfl)).symm
          have hbegun : d' ++ [c] <+: kept stream ++ [b] :=
            (hback ▸ List.prefix_append _ back).trans hpiece
          rcases List.prefix_concat_iff.mp hbegun with hall | hinside
          · have hnil : back = [] := by
              have hlength := hpiece.length_le
              rw [hback, hall, List.length_append] at hlength
              exact List.eq_nil_of_length_eq_zero (by omega)
            refine ⟨_, Nat.le_refl _, ?_⟩
            rw [List.take_length, h, hnil, List.append_nil]
          · refine absurd (hinside.subset ?_) hkept
            rw [hc]
            exact List.mem_append_right _ List.mem_cons_self

/-- Nothing is shown again. -/
theorem shown_take_mono {m n : ℕ} (h : m ≤ n) (stream : List UInt8) :
    shown (stream.take m) <+: shown (stream.take n) := by
  obtain ⟨rest, hrest⟩ := @List.take_prefix_take_left _ stream m n h
  rw [← hrest, (filter_append _ _).1]
  exact List.prefix_append ..

theorem whole_chunk (hne : shown stream ≠ []) :
    (emitAll .new [stream]).atLineStart = lineStartAfter true (shown stream) := by
  rcases atLineStart_snoc [] stream with ⟨hshown, -⟩ | ⟨out, -, hshown, hflag⟩
  · exact absurd hshown hne
  · have hout : shown stream = out := hshown
    rw [hout]
    exact hflag

/-- Other streams leave the flag to the chunks. -/
theorem exists_chunks (hfinished : ¬ Unfinished (shown stream))
    (hlf : (shown stream).getLast? ≠ some lf) (hends : ¬ OnlyEnds stream) :
    (emitAll .new [stream]).atLineStart = true
      ∧ ∃ chunks : List (List UInt8), chunks.flatten = stream
        ∧ (emitAll .new chunks).atLineStart = false := by
  let Open (n : ℕ) : Prop := ∃ b ∈ (shown (stream.take n)).getLast?, b ≠ lf ∧ b ≠ cr
  obtain ⟨m, hm, hopen⟩ : ∃ m ≤ stream.length, Open m := by
    simp only [OnlyEnds, not_forall, not_or] at hends
    obtain ⟨m, hm, b, hb, hnot⟩ := hends
    exact ⟨m, hm, b, hb, hnot⟩
  constructor
  · have hne : shown stream ≠ [] := by
      obtain ⟨b, hb, _⟩ := hopen
      intro hnil
      have hbegun := shown_take_mono hm stream
      rw [List.take_length, hnil, List.prefix_nil] at hbegun
      rw [hbegun] at hb
      cases hb
    obtain ⟨b, hb⟩ := Option.ne_none_iff_exists'.mp
      fun hnone => hne (List.getLast?_eq_none_iff.mp hnone)
    rw [whole_chunk hne, lineStartAfter]
    by_cases hmark : clearScreen <:+: shown stream ∨ home <:+ shown stream
    · rw [if_pos hmark]
    · obtain ⟨hclear, hhome⟩ := not_or.mp hmark
      rw [if_neg hmark, if_neg hlf]
      refine if_neg fun hcr => hfinished ⟨⟨b, hb, ?_, ?_⟩, hclear, hhome⟩
      · exact fun heq => hlf (heq ▸ hb)
      · exact fun heq => hcr (heq ▸ hb)
  · classical
    obtain ⟨b, hb, hlf', hcr'⟩ := Nat.findGreatest_spec hm hopen
    set n := Nat.findGreatest Open stream.length
    have hlast : ∀ k ≤ stream.length, Open k → k ≤ n := fun k hk hopen =>
      Nat.le_findGreatest hk hopen
    have hflatten : ((stream.take n).map fun b => [b]).flatten = stream.take n := by
      rw [← List.flatMap_def, List.flatMap_singleton']
    have hbytes := atLineStart_bytes hb hlf' hcr'
    refine ⟨((stream.take n).map fun b => [b]) ++ [stream.drop n], ?_, ?_⟩
    · rw [flatten_snoc, hflatten, List.take_append_drop]
    · have hsnoc := atLineStart_snoc ((stream.take n).map fun b => [b]) (stream.drop n)
      rw [hflatten, List.take_append_drop, hbytes] at hsnoc
      rcases hsnoc with ⟨-, hflag⟩ | ⟨out, hne, hshown, hflag⟩
      · exact hflag
      · -- a mark in the last chunk would be an unfinished line behind the last one
        have hbracket : 0x5b ∉ out := by
          intro hmem
          obtain ⟨before, after, rfl⟩ := List.append_of_mem hmem
          obtain ⟨k, hk, htake⟩ := @exists_take stream 0x5b (by decide)
            (shown (stream.take n) ++ before) after (by simp [hshown])
          have hle := hlast k hk ⟨0x5b, by rw [htake]; simp, by decide, by decide⟩
          have hlength := (shown_take_mono hle stream).length_le
          rw [htake] at hlength
          simp only [List.length_append, List.length_cons, List.length_nil] at hlength
          omega
        rw [hshown, List.getLast?_append_of_ne_nil _ hne] at hlf
        rw [hflag, lineStartAfter, if_neg, if_neg hlf]
        · exact ite_self _
        · rintro (h | h)
          · exact hbracket (h.subset (by decide))
          · exact hbracket (h.subset (by decide))

/-! ## The prompt -/

theorem Prompt.exists_head (prompt : Prompt) : ∃ head x rest,
    prompt.text = head ++ [x] ++ rest ∧ x ∉ storageSetupOsc
      ∧ (0x07 : UInt8) ∉ head ++ [x] := by
  cases prompt with
  | repl => exact ⟨ascii ">>>", 0x20, [], by decide, by decide, by decide⟩
  | host cwd =>
      exact ⟨ascii "zmux", 0x3a, cwd ++ ascii "$ ", List.append_assoc .., by decide, by decide⟩
  | setup => exact ⟨ascii "alpine-setup>", 0x20, [], by decide, by decide, by decide⟩

theorem Prompt.exists_body (prompt : Prompt) : ∃ body, prompt.text = body ++ [0x20] := by
  cases prompt with
  | repl => exact ⟨ascii ">>>", by decide⟩
  | host cwd =>
      exact ⟨ascii "zmux:" ++ cwd ++ ascii "$", by rw [List.append_assoc]; rfl⟩
  | setup => exact ⟨ascii "alpine-setup>", by decide⟩

/-- The prompt comes behind what is shown and kept. -/
theorem shown_prompt (seen : List UInt8) (prompt : Prompt) :
    shown (seen ++ prompt.text)
      = shown seen ++ kept seen ++ without storageSetupOsc prompt.text := by
  obtain ⟨head, x, rest, htext, hx, hbel⟩ := prompt.exists_head
  obtain ⟨body, hbody⟩ := prompt.exists_body
  have hshow : ∀ data, shown (data ++ prompt.text)
      = shown data ++ (kept data ++ (head ++ [x])) ++ shown rest := by
    intro data
    obtain ⟨hshown, hkept⟩ := filter_text hx hbel data
    rw [htext, ← List.append_assoc, (filter_append _ rest).1, hshown, hkept, List.nil_append]
  have hkept : kept prompt.text = [] := by
    rw [hbody]
    exact (filter_break (by decide) body).2
  have halone := hshow []
  rw [List.nil_append] at halone
  rw [without_eq, hkept, List.append_nil, halone, hshow seen]
  have hnil : shown [] ++ kept [] = [] := rfl
  simp only [List.append_assoc]
  rw [← List.append_assoc (shown []), hnil, List.nil_append]

theorem emitted_prompt (h : Seen s seen) (prompt : Prompt) :
    (emitPrompt prompt s).output.emitted
      = (if s.atLineStart then shown seen ++ kept seen
          else shown seen ++ (kept seen ++ [cr, lf])) ++ without storageSetupOsc prompt.text := by
  rw [emitPrompt]
  by_cases hflag : s.atLineStart = true
  · rw [if_pos hflag, if_pos hflag, (h.emit prompt.text).1.emitted, shown_prompt]
  · rw [if_neg hflag, if_neg hflag, ((h.emit [cr, lf]).1.emit prompt.text).1.emitted,
      shown_prompt]
    obtain ⟨hshown, hkept⟩ := @filter_text [cr] lf (by decide) (by decide) seen
    change shown (seen ++ ([cr] ++ [lf])) ++ kept (seen ++ ([cr] ++ [lf])) ++ _ = _
    rw [hshown, hkept, List.append_nil]
    rfl

/-- The prompt is on a fresh line: a line feed is put in front of it, or
what is shown and kept ends on one. -/
theorem exists_front_iff (h : Seen s seen) (prompt : Prompt) :
    (∃ front, (emitPrompt prompt s).output.emitted
        = front ++ without storageSetupOsc prompt.text ∧ Fresh front)
      ↔ s.atLineStart = false ∨ Fresh (shown seen ++ kept seen) := by
  rw [emitted_prompt h]
  by_cases hflag : s.atLineStart = true
  · rw [if_pos hflag, hflag]
    constructor
    · rintro ⟨front, heq, hfresh⟩
      rw [List.append_cancel_right heq]
      exact Or.inr hfresh
    · rintro (hfalse | hfresh)
      · cases hfalse
      · exact ⟨_, rfl, hfresh⟩
  · refine ⟨fun _ => Or.inl (Bool.eq_false_iff.mpr hflag), fun _ => ⟨_, rfl, ?_⟩⟩
    rw [if_neg hflag]
    refine ⟨_, Nat.le_refl _, Or.inr (Or.inl ?_), ?_⟩
    · rw [List.take_length]
      exact ⟨shown seen ++ (kept seen ++ [cr]), by simp⟩
    · rw [List.drop_length]
      intro b hb
      cases hb

/-! ## Fresh lines -/

theorem split_lastLine (text : List UInt8) :
    text = (text.reverse.dropWhile (· ≠ lf)).reverse
      ++ (text.reverse.takeWhile (· ≠ lf)).reverse := by
  rw [← List.reverse_append, List.takeWhile_append_dropWhile, List.reverse_reverse]

theorem fresh_of_nothingSince {text : List UInt8} (h : NothingSince text) : Fresh text := by
  have hsplit := split_lastLine text
  set front := text.reverse.dropWhile (· ≠ lf) with hfront
  set back := text.reverse.takeWhile (· ≠ lf) with hback
  refine ⟨front.reverse.length, ?_, ?_, ?_⟩
  · rw [hsplit, List.length_append]
    exact Nat.le_add_right _ _
  · rw [hsplit, List.take_left]
    cases hcase : front with
    | nil => exact Or.inl rfl
    | cons b rest =>
        have hb : b = lf := by
          have hhead := List.head?_dropWhile_not (fun b => decide (b ≠ lf)) text.reverse
          rw [← hfront, hcase] at hhead
          simpa using hhead
        rw [List.reverse_cons, hb]
        exact Or.inr (Or.inl (List.suffix_append _ _))
  · rw [hsplit, List.drop_left]
    intro b hb
    exact h b (List.mem_reverse.mp hb)

theorem getLast?_of_suffix {mark text : List UInt8} (hne : mark ≠ []) (h : mark <:+ text) :
    text.getLast? = mark.getLast? := by
  obtain ⟨before, rfl⟩ := h
  exact List.getLast?_append_of_ne_nil _ hne

theorem nothingSince_of_fresh {text : List UInt8} (h : Fresh text)
    (hmark : ∀ b ∈ text.reverse.takeWhile (· ≠ lf), b ≠ 0x4a ∧ b ≠ 0x48) :
    NothingSince text := by
  obtain ⟨n, hn, hend, hdrop⟩ := h
  have hsplit := split_lastLine text
  set front := (text.reverse.dropWhile (· ≠ lf)).reverse
  set back := (text.reverse.takeWhile (· ≠ lf)).reverse with hback
  intro b hb
  rcases Nat.lt_or_ge front.length n with hlt | hle
  · -- the mark ends behind the last line feed
    have hlength := congrArg List.length hsplit
    rw [List.length_append] at hlength
    have hne : back.take (n - front.length) ≠ [] := by
      rw [← List.length_pos_iff, List.length_take]
      omega
    obtain ⟨c, hc⟩ := Option.ne_none_iff_exists'.mp
      fun hnone => hne (List.getLast?_eq_none_iff.mp hnone)
    have hlast : (text.take n).getLast? = some c := by
      rw [hsplit, List.take_append, List.take_of_length_le hlt.le,
        List.getLast?_append_of_ne_nil _ hne, hc]
    have hmem : c ∈ text.reverse.takeWhile (· ≠ lf) := by
      rw [← List.mem_reverse, ← hback]
      exact List.mem_of_mem_take (List.mem_of_getLast? hc)
    obtain ⟨hclear, hhome⟩ := hmark c hmem
    rcases hend with rfl | h | h | h
    · exact absurd hlt (Nat.not_lt_zero _)
    · have heq := hlast.symm.trans (getLast?_of_suffix (by decide) h)
      exact absurd (Option.some.inj heq) (by simpa using List.mem_takeWhile_imp hmem)
    · exact absurd (Option.some.inj (hlast.symm.trans (getLast?_of_suffix (by decide) h))) hclear
    · exact absurd (Option.some.inj (hlast.symm.trans (getLast?_of_suffix (by decide) h))) hhome
  · refine hdrop b ?_
    rw [hsplit, List.drop_append_of_le_length hle]
    exact List.mem_append_right _ (List.mem_reverse.mpr hb)

/-- Behind the last line feed of these streams there is no mark. -/
theorem no_mark (h : (shown stream).getLast? = some lf ∨ OnlyEnds stream) :
    ∀ b ∈ (shown stream ++ kept stream).reverse.takeWhile (· ≠ lf), b ≠ 0x4a ∧ b ≠ 0x48 := by
  have hosc : storageSetupOsc.all (fun b => b ≠ 0x4a && b ≠ 0x48) = true := by decide
  have hkept : ∀ b ∈ kept stream, b ≠ 0x4a ∧ b ≠ 0x48 := fun b hb => by
    simpa using List.all_eq_true.mp hosc b ((partial_kept stream).1.subset hb)
  intro b hb
  rcases h with hlf | hends
  · obtain ⟨front, hfront⟩ := List.getLast?_eq_some_iff.mp hlf
    rw [hfront, List.append_assoc, List.reverse_append, List.reverse_append, List.reverse_singleton,
      List.append_assoc] at hb
    refine hkept b (List.mem_reverse.mp ?_)
    rw [List.takeWhile_append] at hb
    split at hb
    · rw [List.singleton_append, List.takeWhile_cons_of_neg (by simp), List.append_nil] at hb
      exact hb
    · exact List.takeWhile_subset _ hb
  · rcases List.mem_append.mp (List.mem_reverse.mp (List.takeWhile_subset _ hb)) with hmem | hmem
    · have hshown : ∀ x ∈ shown stream, x ∉ storageSetupOsc → x = lf ∨ x = cr := by
        intro x hx hosc
        obtain ⟨before, after, hsplit⟩ := List.append_of_mem hx
        obtain ⟨n, hn, htake⟩ := @exists_take stream x hosc before after (by simp [hsplit])
        exact hends n hn x (by rw [htake]; simp)
      constructor
      · rintro rfl
        exact absurd (hshown _ hmem (by decide)) (by decide)
      · rintro rfl
        exact absurd (hshown _ hmem (by decide)) (by decide)
    · exact hkept b hmem

/-- **Prompts come on a fresh line, whatever the chunks, exactly for these
streams**: the last line is unfinished and nothing clears the screen; or
the stream ends in a line feed, or shows only line ends, and no printable
byte of a kept tail comes behind the last line feed. -/
theorem promptFresh_iff (prompt : Prompt) (chunks : List (List UInt8)) :
    PromptFresh prompt chunks ↔ Steady chunks.flatten := by
  rw [PromptFresh, exists_front_iff (seen_emitAll chunks)]
  by_cases hfinished : Unfinished (shown chunks.flatten)
  · refine ⟨fun _ => Or.inl hfinished, fun _ => ⟨Or.inl (atLineStart_of_unfinished hfinished), ?_⟩⟩
    intro chunks' hstream
    rw [atLineStart_of_unfinished hfinished, atLineStart_of_unfinished (hstream.symm ▸ hfinished)]
  · by_cases hset : (shown chunks.flatten).getLast? = some lf ∨ OnlyEnds chunks.flatten
    · have hflag : ∀ chunks' : List (List UInt8), chunks'.flatten = chunks.flatten →
          (emitAll .new chunks').atLineStart = true := by
        intro chunks' hstream
        rcases hset with hlf | hends
        · exact atLineStart_of_lf (hstream.symm ▸ hlf)
        · exact atLineStart_of_onlyEnds (hstream.symm ▸ hends)
      have hflagHere := hflag chunks rfl
      constructor
      · rintro ⟨hfalse | hfresh, -⟩
        · cases hfalse.symm.trans hflagHere
        · exact Or.inr ⟨hset, nothingSince_of_fresh hfresh (no_mark hset)⟩
      · rintro (h | ⟨-, hnothing⟩)
        · exact absurd h hfinished
        · exact ⟨Or.inr (fresh_of_nothingSince hnothing),
            fun chunks' hstream => (hflag chunks' hstream).trans hflagHere.symm⟩
    · obtain ⟨hlf, hends⟩ := not_or.mp hset
      obtain ⟨hwhole, chunks', hstream, hflag⟩ := exists_chunks hfinished hlf hends
      constructor
      · rintro ⟨-, hsame⟩
        have htrue := (hsame _ List.flatten_singleton).symm.trans hwhole
        cases htrue.symm.trans ((hsame chunks' hstream).symm.trans hflag)
      · rintro (h | ⟨h, -⟩)
        · exact absurd h hfinished
        · exact absurd h hset

/-- A clear sequence and text in one chunk: the prompt is pasted on it. -/
theorem prompt_pasted : ¬ PromptFresh .repl [clearScreen ++ ascii "abc"] := by
  rintro ⟨⟨front, heq, hfresh⟩, -⟩
  have hpasted : (emitPrompt .repl (emitAll .new [clearScreen ++ ascii "abc"])).output.emitted
      = (clearScreen ++ ascii "abc") ++ without storageSetupOsc Prompt.repl.text := by
    decide
  rw [← List.append_cancel_right (hpasted.symm.trans heq)] at hfresh
  exact absurd hfresh (by decide)

end FreshLine

end Zmux
