import Zmux.Runs
import Zmux.Utf8Strict

/-!
# What a redirection writes

The last stage of a pipeline writes to a pipe, `_read_stdout_streaming` of
`python_shell.py` reads it on a helper thread while it waits for the
process, and `_exec_subprocess_inner` writes what was read to the file of
`> f` or `>> f`.

Between the two is a text stream: strict UTF-8, universal newlines, one
line at a time. A decoding error is a `ValueError`, and the helper takes
that for a closed handle and ends; nobody reads the pipe from then on. So
the file has the bytes of the process exactly when they are UTF-8 without
a carriage return (`faithful_iff`), and a process that writes others may
wait for ever (`blocked_on_full_pipe`).
-/

namespace Zmux

open Utf8 (decodeStrict encode)

/-! ## The text stream -/

/-- Universal newlines: `\r\n` and `\r` become `\n`. A `\r` waits for what
comes after it. -/
def translateNewlines : Bool → List Char → List Char × Bool
  | waiting, [] => ([], waiting)
  | waiting, c :: text =>
    let newline := if waiting && c != '\n' then ['\n'] else []
    if c = '\r' then
      (newline ++ (translateNewlines true text).1, (translateNewlines true text).2)
    else (newline ++ c :: (translateNewlines false text).1, (translateNewlines false text).2)

/-- The first line and what is after it. -/
def splitLine? : List Char → Option (List Char × List Char)
  | [] => none
  | c :: text =>
    if c = '\n' then some ([c], text)
    else (splitLine? text).map fun split => (c :: split.1, split.2)

/-- The stream the helper reads from. -/
structure TextStream where
  decoder : Utf8.State
  /-- A `\r` waits. -/
  waiting : Bool
  /-- Decoded, and not returned by `readline` yet. -/
  buffer : List Char
deriving DecidableEq

namespace TextStream

def new : TextStream := ⟨.start, false, []⟩

/-- More bytes; `none` is the `UnicodeDecodeError`. -/
def read (p : TextStream) (bytes : List UInt8) : Option TextStream :=
  (decodeStrict p.decoder bytes).map fun piece =>
    { decoder := piece.2
      waiting := (translateNewlines p.waiting piece.1).2
      buffer := p.buffer ++ (translateNewlines p.waiting piece.1).1 }

end TextStream

/-! ## The run -/

/-- Where the thread of the command is. -/
inductive RedirectPc where
  /-- `while proc.poll() is None`. -/
  | polling
  /-- `reader.join(timeout=1.0)`. -/
  | joining
  | writing (stdout : List Char)
  | returned
deriving DecidableEq

structure RedirectRun where
  /-- What the process has still to write. -/
  toWrite : List UInt8
  exited : Bool
  pipe : List UInt8
  /-- The stream of the helper thread, `none` when the thread has ended. -/
  pump : Option TextStream
  chunks : List (List Char)
  pc : RedirectPc
  file : List UInt8
deriving DecidableEq

inductive RedirectStep where
  | childWrite (n : ℕ)
  | childExit
  | pumpRead (n : ℕ)
  | pumpLine
  | pumpEnd
  | poll
  | join
  | joinTimeout
  | write
deriving DecidableEq

namespace RedirectRun

def start (old bytes : List UInt8) : RedirectRun where
  toWrite := bytes
  exited := false
  pipe := []
  pump := some .new
  chunks := []
  pc := .polling
  file := old

/-- `pump` at the end of the file. -/
def atEnd (s : RedirectRun) (p : TextStream) : RedirectRun :=
  -- A character that is cut off is an error as well.
  if p.decoder ≠ .start then { s with pump := none }
  else if p.waiting then
    { s with pump := some { p with waiting := false, buffer := p.buffer ++ ['\n'] } }
  else if p.buffer = [] then { s with pump := none }
  else { s with pump := some { p with buffer := [] }, chunks := s.chunks ++ [p.buffer] }

variable (capacity : ℕ) (append : Bool)

def step (s : RedirectRun) : RedirectStep → Option RedirectRun
  | .childWrite n =>
    if 0 < n ∧ n ≤ s.toWrite.length ∧ s.pipe.length + n ≤ capacity then
      some { s with toWrite := s.toWrite.drop n, pipe := s.pipe ++ s.toWrite.take n }
    else none
  | .childExit =>
    if s.toWrite = [] ∧ s.exited = false then some { s with exited := true } else none
  | .pumpRead n =>
    match s.pump with
    | some p =>
      if splitLine? p.buffer = none ∧ 0 < n ∧ n ≤ s.pipe.length ∧ n ≤ 8192 then
        -- The buffer is lost with the stream when the bytes are no UTF-8.
        some { s with pipe := s.pipe.drop n, pump := p.read (s.pipe.take n) }
      else none
    | none => none
  | .pumpLine =>
    match s.pump with
    | some p =>
      (splitLine? p.buffer).map fun split =>
        { s with pump := some { p with buffer := split.2 }, chunks := s.chunks ++ [split.1] }
    | none => none
  | .pumpEnd =>
    match s.pump with
    | some p =>
      if splitLine? p.buffer = none ∧ s.pipe = [] ∧ s.exited = true then some (s.atEnd p) else none
    | none => none
  | .poll => if s.pc = .polling ∧ s.exited = true then some { s with pc := .joining } else none
  | .join =>
    if s.pc = .joining ∧ s.pump = none then some { s with pc := .writing s.chunks.flatten }
    else none
  | .joinTimeout =>
    if s.pc = .joining ∧ s.pump ≠ none then some { s with pc := .writing s.chunks.flatten }
    else none
  | .write =>
    match s.pc with
    | .writing stdout =>
      some { s with pc := .returned, file := (if append then s.file else []) ++ encode stdout }
    | _ => none

end RedirectRun

/-- The helper has its second to read what is left in the pipe. -/
def InTime (_ : RedirectRun) (a : RedirectStep) : Prop := a ≠ .joinTimeout

instance (s : RedirectRun) (a : RedirectStep) : Decidable (InTime s a) := instDecidableNot

/-- The redirection ends, has read everything, and the file has the bytes. -/
structure Faithful (capacity : ℕ) (append : Bool) (old bytes : List UInt8) : Prop where
  terminates : Acc (fun s' s => ∃ a, InTime s a ∧ RedirectRun.step capacity append s a = some s')
    (.start old bytes)
  returns : ∀ s, Reach (RedirectRun.step capacity append) InTime (.start old bytes) s →
    (∀ a, InTime s a → RedirectRun.step capacity append s a = none) →
      s.pc = .returned ∧ s.toWrite = [] ∧ s.pipe = []
        ∧ s.file = (if append then old else []) ++ bytes

/-! ## Lines and newlines -/

theorem splitLine?_eq_some {text line rest : List Char}
    (h : splitLine? text = some (line, rest)) : text = line ++ rest ∧ line ≠ [] := by
  induction text generalizing line with
  | nil => cases h
  | cons c text ih =>
      rw [splitLine?] at h
      split at h
      · obtain ⟨rfl, rfl⟩ := Prod.mk.inj (Option.some.inj h)
        exact ⟨rfl, List.cons_ne_nil _ _⟩
      · obtain ⟨⟨line', rest'⟩, hsplit, heq⟩ := Option.map_eq_some_iff.mp h
        obtain ⟨rfl, rfl⟩ := Prod.mk.inj heq
        exact ⟨congrArg (c :: ·) (ih hsplit).1, List.cons_ne_nil _ _⟩

/-- A text without `\r` stays as it is. -/
theorem translateNewlines_plain {text : List Char} (h : '\r' ∉ text) :
    translateNewlines false text = (text, false) := by
  induction text with
  | nil => rfl
  | cons c text ih =>
      obtain ⟨hc, htext⟩ := not_or.mp (List.mem_cons.not.mp h)
      rw [translateNewlines, if_neg (Ne.symm hc), ih htext]
      rfl

/-- No `\r` is ever put out. -/
theorem return_notMem_translateNewlines (waiting : Bool) (text : List Char) :
    '\r' ∉ (translateNewlines waiting text).1 := by
  induction text generalizing waiting with
  | nil => exact List.not_mem_nil
  | cons c text ih =>
      have hnewline : '\r' ∉ if waiting && c != '\n' then ['\n'] else [] := by
        split <;> decide
      rw [translateNewlines]
      split
      · exact fun hmem => (List.mem_append.mp hmem).elim hnewline (ih true)
      · rename_i hc
        intro hmem
        rcases List.mem_append.mp hmem with hmem | hmem
        · exact hnewline hmem
        · rcases List.mem_cons.mp hmem with heq | hmem
          · exact hc heq.symm
          · exact ih false hmem

/-- A `\r` that waits counts for two. -/
theorem length_translateNewlines_le (waiting : Bool) (text : List Char) :
    (translateNewlines waiting text).1.length + 2 * (translateNewlines waiting text).2.toNat
      ≤ 2 * text.length + 2 * waiting.toNat := by
  induction text generalizing waiting with
  | nil => simp [translateNewlines]
  | cons c text ih =>
      have hnewline : (if waiting && c != '\n' then ['\n'] else []).length ≤ waiting.toNat := by
        cases waiting
        · exact Nat.le_refl 0
        · show (if c != '\n' then ['\n'] else []).length ≤ 1
          split
          · exact Nat.le_refl 1
          · exact Nat.zero_le 1
      rw [translateNewlines]
      split
      · have hrest := ih true
        simp only [List.length_append, List.length_cons, Bool.toNat_true] at hrest hnewline ⊢
        omega
      · have hrest := ih false
        simp only [List.length_append, List.length_cons, Bool.toNat_false] at hrest hnewline ⊢
        omega

namespace TextStream

theorem read_eq_some {p p' : TextStream} {bytes : List UInt8} (h : p.read bytes = some p') :
    ∃ text, decodeStrict p.decoder bytes = some (text, p'.decoder)
      ∧ p'.waiting = (translateNewlines p.waiting text).2
      ∧ p'.buffer = p.buffer ++ (translateNewlines p.waiting text).1 := by
  obtain ⟨⟨text, s⟩, hdecode, rfl⟩ := Option.map_eq_some_iff.mp h
  exact ⟨text, hdecode, rfl, rfl⟩

/-- The characters it still has to return. -/
def size (p : TextStream) : ℕ := p.buffer.length + 2 * p.waiting.toNat

theorem size_read_le {p p' : TextStream} {bytes : List UInt8} (h : p.read bytes = some p') :
    p'.size ≤ p.size + 2 * bytes.length := by
  obtain ⟨text, hdecode, hwaiting, hbuffer⟩ := read_eq_some h
  have htext := Utf8.length_decodeStrict_le hdecode
  have hle := length_translateNewlines_le p.waiting text
  rw [size, size, hwaiting, hbuffer, List.length_append]
  omega

end TextStream

namespace RedirectRun

variable {capacity : ℕ} {append : Bool} {s s' : RedirectRun} {a : RedirectStep}

/-- All a step can do. -/
inductive Moves (capacity : ℕ) (append : Bool) (s : RedirectRun) : RedirectStep → RedirectRun → Prop
  | childWrite {n : ℕ} : 0 < n → n ≤ s.toWrite.length → s.pipe.length + n ≤ capacity →
      Moves capacity append s (.childWrite n)
        { s with toWrite := s.toWrite.drop n, pipe := s.pipe ++ s.toWrite.take n }
  | childExit : s.toWrite = [] → s.exited = false →
      Moves capacity append s .childExit { s with exited := true }
  | pumpRead {n : ℕ} {p : TextStream} : s.pump = some p → splitLine? p.buffer = none → 0 < n →
      n ≤ s.pipe.length → n ≤ 8192 →
      Moves capacity append s (.pumpRead n)
        { s with pipe := s.pipe.drop n, pump := p.read (s.pipe.take n) }
  | pumpLine {p : TextStream} {line rest : List Char} : s.pump = some p →
      splitLine? p.buffer = some (line, rest) →
      Moves capacity append s .pumpLine
        { s with pump := some { p with buffer := rest }, chunks := s.chunks ++ [line] }
  | pumpEnd {p : TextStream} : s.pump = some p → splitLine? p.buffer = none → s.pipe = [] →
      s.exited = true → Moves capacity append s .pumpEnd (s.atEnd p)
  | poll : s.pc = .polling → s.exited = true →
      Moves capacity append s .poll { s with pc := .joining }
  | join : s.pc = .joining → s.pump = none →
      Moves capacity append s .join { s with pc := .writing s.chunks.flatten }
  | joinTimeout : s.pc = .joining → s.pump ≠ none →
      Moves capacity append s .joinTimeout { s with pc := .writing s.chunks.flatten }
  | write {stdout : List Char} : s.pc = .writing stdout →
      Moves capacity append s .write
        { s with pc := .returned, file := (if append then s.file else []) ++ encode stdout }

theorem moves_of_step (h : step capacity append s a = some s') : Moves capacity append s a s' := by
  cases a with
  | childWrite n =>
      obtain ⟨⟨hn, hle, hfits⟩, heq⟩ := Option.ite_none_right_eq_some.mp h
      obtain rfl := Option.some.inj heq
      exact .childWrite hn hle hfits
  | childExit =>
      obtain ⟨⟨hdone, hexited⟩, heq⟩ := Option.ite_none_right_eq_some.mp h
      obtain rfl := Option.some.inj heq
      exact .childExit hdone hexited
  | pumpRead n =>
      cases hpump : s.pump with
      | none => simp only [step, hpump, reduceCtorEq] at h
      | some p =>
          simp only [step, hpump] at h
          obtain ⟨⟨hline, hn, hle, hchunk⟩, heq⟩ := Option.ite_none_right_eq_some.mp h
          obtain rfl := Option.some.inj heq
          exact .pumpRead hpump hline hn hle hchunk
  | pumpLine =>
      cases hpump : s.pump with
      | none => simp only [step, hpump, reduceCtorEq] at h
      | some p =>
          simp only [step, hpump] at h
          obtain ⟨⟨line, rest⟩, hsplit, rfl⟩ := Option.map_eq_some_iff.mp h
          exact .pumpLine hpump hsplit
  | pumpEnd =>
      cases hpump : s.pump with
      | none => simp only [step, hpump, reduceCtorEq] at h
      | some p =>
          simp only [step, hpump] at h
          obtain ⟨⟨hline, hpipe, hexited⟩, heq⟩ := Option.ite_none_right_eq_some.mp h
          obtain rfl := Option.some.inj heq
          exact .pumpEnd hpump hline hpipe hexited
  | poll =>
      obtain ⟨⟨hpc, hexited⟩, heq⟩ := Option.ite_none_right_eq_some.mp h
      obtain rfl := Option.some.inj heq
      exact .poll hpc hexited
  | join =>
      obtain ⟨⟨hpc, hpump⟩, heq⟩ := Option.ite_none_right_eq_some.mp h
      obtain rfl := Option.some.inj heq
      exact .join hpc hpump
  | joinTimeout =>
      obtain ⟨⟨hpc, hpump⟩, heq⟩ := Option.ite_none_right_eq_some.mp h
      obtain rfl := Option.some.inj heq
      exact .joinTimeout hpc hpump
  | write =>
      cases hpc : s.pc with
      | writing stdout =>
          simp only [step, hpc] at h
          obtain rfl := Option.some.inj h
          exact .write hpc
      | _ => simp only [step, hpc, reduceCtorEq] at h

end RedirectRun

/-! ## Every step comes closer to the end -/

namespace RedirectPc

def remaining : RedirectPc → ℕ
  | polling => 3
  | joining => 2
  | writing _ => 1
  | returned => 0

end RedirectPc

namespace RedirectRun

variable {capacity : ℕ} {append : Bool} {s s' : RedirectRun} {a : RedirectStep}

/-- What the helper has still to do. -/
def pumpSize : Option TextStream → ℕ
  | none => 0
  | some p => 1 + p.size

/-- A byte counts once more for every place it has still to pass. -/
def size (s : RedirectRun) : ℕ :=
  4 * s.toWrite.length + 3 * s.pipe.length + pumpSize s.pump + (!s.exited).toNat + s.pc.remaining

theorem pumpSize_read_le (p : TextStream) (bytes : List UInt8) :
    pumpSize (p.read bytes) ≤ 1 + p.size + 2 * bytes.length := by
  cases hread : p.read bytes with
  | none => exact Nat.zero_le _
  | some p' =>
      have hle := TextStream.size_read_le hread
      rw [pumpSize]
      omega

theorem size_atEnd_lt {p : TextStream} (hpump : s.pump = some p) : (s.atEnd p).size < s.size := by
  have hsize : s.size = 4 * s.toWrite.length + 3 * s.pipe.length + (1 + p.size)
      + (!s.exited).toNat + s.pc.remaining := by rw [size, hpump, pumpSize]
  rw [hsize, atEnd]
  split
  · simp only [size, pumpSize]
    omega
  split
  · rename_i hwaiting
    simp only [size, pumpSize, TextStream.size, List.length_append, List.length_singleton,
      hwaiting, Bool.toNat_true, Bool.toNat_false]
    omega
  split
  · simp only [size, pumpSize]
    omega
  · rename_i hbuffer
    have hpos := List.length_pos_of_ne_nil hbuffer
    simp only [size, pumpSize, TextStream.size, List.length_nil]
    omega

theorem size_step_lt (h : step capacity append s a = some s') : s'.size < s.size := by
  cases moves_of_step h with
  | @childWrite n hn hle _ =>
      simp only [size, List.length_append, List.length_take, List.length_drop]
      omega
  | childExit _ hexited => simp [size, hexited]
  | @pumpRead n p hpump _ hn hle _ =>
      have hread := pumpSize_read_le p (s.pipe.take n)
      rw [List.length_take, Nat.min_eq_left hle] at hread
      simp only [size, List.length_drop, hpump, pumpSize.eq_2]
      omega
  | @pumpLine p line rest hpump hsplit =>
      obtain ⟨hbuffer, hne⟩ := splitLine?_eq_some hsplit
      have hpos := List.length_pos_of_ne_nil hne
      simp only [size, hpump, pumpSize, TextStream.size, hbuffer, List.length_append]
      omega
  | pumpEnd hpump _ _ _ => exact size_atEnd_lt hpump
  | poll hpc _ => simp [size, hpc, RedirectPc.remaining]
  | join hpc _ => simp [size, hpc, RedirectPc.remaining]
  | joinTimeout hpc _ => simp [size, hpc, RedirectPc.remaining]
  | write hpc => simp [size, hpc, RedirectPc.remaining]

/-- There is no infinite run. -/
theorem acc_step (capacity : ℕ) (append : Bool) (s : RedirectRun) :
    Acc (fun s' s => ∃ a, InTime s a ∧ step capacity append s a = some s') s := by
  refine Subrelation.accessible (r := InvImage (· < ·) size) ?_
    (InvImage.accessible size (Nat.lt_wfRel.wf.apply s.size))
  rintro s' s ⟨a, -, h⟩
  exact size_step_lt h

/-! ## No carriage return gets through -/

/-- The file is as it was, until the text that was read is written. -/
structure Printed (append : Bool) (old : List UInt8) (s : RedirectRun) : Prop where
  chunks : ∀ chunk ∈ s.chunks, '\r' ∉ chunk
  buffer : ∀ p, s.pump = some p → '\r' ∉ p.buffer
  stdout : ∀ stdout, s.pc = .writing stdout → '\r' ∉ stdout
  kept : s.pc ≠ .returned → s.file = old
  written : s.pc = .returned →
    ∃ text, '\r' ∉ text ∧ s.file = (if append then old else []) ++ encode text

theorem Printed.flatten {old : List UInt8} (h : Printed append old s) :
    '\r' ∉ s.chunks.flatten := by
  intro hmem
  obtain ⟨chunk, hchunk, hmem⟩ := List.mem_flatten.mp hmem
  exact h.chunks chunk hchunk hmem

/-- The chunks and a new one. -/
theorem Printed.append_chunk {old : List UInt8} (h : Printed append old s) {chunk : List Char}
    (hchunk : '\r' ∉ chunk) : ∀ c ∈ s.chunks ++ [chunk], '\r' ∉ c := by
  intro c hc
  rcases List.mem_append.mp hc with hc | hc
  · exact h.chunks c hc
  · exact List.mem_singleton.mp hc ▸ hchunk

theorem printed_atEnd {old : List UInt8} (h : Printed append old s) {p : TextStream}
    (hpump : s.pump = some p) : Printed append old (s.atEnd p) := by
  have hbuffer := h.buffer p hpump
  rw [atEnd]
  split
  · exact { h with buffer := nofun }
  split
  · refine { h with buffer := ?_ }
    rintro _ ⟨⟩ hmem
    rcases List.mem_append.mp hmem with hmem | hmem
    · exact hbuffer hmem
    · exact absurd (List.mem_singleton.mp hmem) (by decide)
  split
  · exact { h with buffer := nofun }
  · refine { h with chunks := h.append_chunk hbuffer, buffer := ?_ }
    rintro _ ⟨⟩
    exact List.not_mem_nil

theorem printed_step {old : List UInt8} (h : Printed append old s)
    (hstep : step capacity append s a = some s') : Printed append old s' := by
  cases moves_of_step hstep with
  | childWrite _ _ _ => exact { h with }
  | childExit _ _ => exact { h with }
  | @pumpRead n p hpump _ _ _ _ =>
      refine { h with buffer := fun p' hread => ?_ }
      obtain ⟨text, -, -, hbuffer⟩ := TextStream.read_eq_some hread
      rw [hbuffer]
      intro hmem
      rcases List.mem_append.mp hmem with hmem | hmem
      · exact h.buffer p hpump hmem
      · exact return_notMem_translateNewlines _ _ hmem
  | @pumpLine p line rest hpump hsplit =>
      obtain ⟨hbuffer, -⟩ := splitLine?_eq_some hsplit
      have hno := h.buffer p hpump
      rw [hbuffer] at hno
      refine { h with
        chunks := h.append_chunk fun hmem => hno (List.mem_append_left _ hmem)
        buffer := ?_ }
      rintro _ ⟨⟩ hmem
      exact hno (List.mem_append_right _ hmem)
  | pumpEnd hpump _ _ _ => exact printed_atEnd h hpump
  | poll hpc _ =>
      exact { h with stdout := nofun, kept := fun _ => h.kept (hpc ▸ nofun), written := nofun }
  | join hpc _ =>
      refine { h with stdout := ?_, kept := fun _ => h.kept (hpc ▸ nofun), written := nofun }
      rintro _ ⟨⟩
      exact h.flatten
  | joinTimeout hpc _ =>
      refine { h with stdout := ?_, kept := fun _ => h.kept (hpc ▸ nofun), written := nofun }
      rintro _ ⟨⟩
      exact h.flatten
  | @write stdout hpc =>
      have hold : s.file = old := h.kept (hpc ▸ nofun)
      refine { h with stdout := nofun, kept := fun hne => absurd rfl hne, written := fun _ => ?_ }
      exact ⟨stdout, h.stdout stdout hpc, by rw [← hold]⟩

theorem printed_start (append : Bool) (old bytes : List UInt8) :
    Printed append old (start old bytes) where
  chunks := nofun
  buffer := by
    rintro _ ⟨⟩
    exact List.not_mem_nil
  stdout := nofun
  kept _ := rfl
  written := nofun

/-! ## A text without carriage returns -/

/-- What the helper holds is the text of the bytes it took; when it has
ended it took all of them. -/
inductive Carried (text : List Char) (s : RedirectRun) : Prop
  | reading {p : TextStream} {front : List UInt8} {before : List Char} :
      s.pump = some p → encode text = front ++ (s.pipe ++ s.toWrite) →
      decodeStrict .start front = some (before, p.decoder) → p.waiting = false →
      s.chunks.flatten ++ p.buffer = before → s.pc = .polling ∨ s.pc = .joining →
      Carried text s
  | ended : s.pump = none → s.toWrite = [] → s.pipe = [] → s.chunks.flatten = text →
      (∀ stdout, s.pc = .writing stdout → stdout = text) → Carried text s

structure Inv (append : Bool) (old : List UInt8) (text : List Char) (s : RedirectRun) : Prop where
  exited : s.exited = true → s.toWrite = []
  polled : s.pc ≠ .polling → s.exited = true
  carried : Carried text s
  kept : s.pc ≠ .returned → s.file = old
  written : s.pc = .returned → s.file = (if append then old else []) ++ encode text

variable {old : List UInt8} {text : List Char}

/-- While the helper runs, all that it has read is in its stream or in the
chunks. -/
theorem carried_pump {p : TextStream} (h : Carried text s) (hpump : s.pump = some p) :
    ∃ front before, encode text = front ++ (s.pipe ++ s.toWrite)
      ∧ decodeStrict .start front = some (before, p.decoder) ∧ p.waiting = false
      ∧ s.chunks.flatten ++ p.buffer = before ∧ (s.pc = .polling ∨ s.pc = .joining) := by
  cases h with
  | reading hpump' hbytes hdecode hwaiting hbefore hpc =>
      obtain rfl := Option.some.inj (hpump.symm.trans hpump')
      exact ⟨_, _, hbytes, hdecode, hwaiting, hbefore, hpc⟩
  | ended hpump' _ _ _ _ => cases hpump.symm.trans hpump'

/-- The bytes read so far begin the encoding. -/
theorem prefix_of_decode {front back : List UInt8} {before : List Char} {d : Utf8.State}
    (hbytes : encode text = front ++ back) (h : decodeStrict .start front = some (before, d)) :
    ∃ later, decodeStrict d back = some (later, .start) ∧ text = before ++ later :=
  Utf8.decodeStrict_piece h (hbytes ▸ Utf8.decodeStrict_encode text)

theorem carried_read (hno : '\r' ∉ text) {p : TextStream} {n : ℕ} {front : List UInt8}
    {before : List Char} (hbytes : encode text = front ++ (s.pipe ++ s.toWrite))
    (hdecode : decodeStrict .start front = some (before, p.decoder)) (hwaiting : p.waiting = false)
    (hbefore : s.chunks.flatten ++ p.buffer = before) (hpc : s.pc = .polling ∨ s.pc = .joining) :
    Carried text { s with pipe := s.pipe.drop n, pump := p.read (s.pipe.take n) } := by
  obtain ⟨later, hlater, rfl⟩ := prefix_of_decode hbytes hdecode
  have hsplit : s.pipe ++ s.toWrite = s.pipe.take n ++ (s.pipe.drop n ++ s.toWrite) := by
    rw [← List.append_assoc, List.take_append_drop]
  rw [hsplit] at hlater
  obtain ⟨⟨piece, d⟩, hpiece⟩ := Utf8.decodeStrict_prefix hlater
  obtain ⟨rest, -, rfl⟩ := Utf8.decodeStrict_piece hpiece hlater
  have hplain : translateNewlines false piece = (piece, false) :=
    translateNewlines_plain fun hmem =>
      hno (List.mem_append_right _ (List.mem_append_left _ hmem))
  have hread : p.read (s.pipe.take n) = some ⟨d, false, p.buffer ++ piece⟩ := by
    rw [TextStream.read, hpiece, hwaiting, Option.map_some, hplain]
  have hfront : decodeStrict .start (front ++ s.pipe.take n) = some (before ++ piece, d) := by
    rw [Utf8.decodeStrict_append, hdecode, Option.bind_some, hpiece, Option.map_some]
  refine .reading hread ?_ hfront rfl ?_ hpc
  · rw [hbytes, hsplit, List.append_assoc]
  · rw [← List.append_assoc, hbefore]

theorem carried_atEnd {p : TextStream} {front : List UInt8} {before : List Char}
    (hbytes : encode text = front ++ (s.pipe ++ s.toWrite))
    (hdecode : decodeStrict .start front = some (before, p.decoder)) (hwaiting : p.waiting = false)
    (hbefore : s.chunks.flatten ++ p.buffer = before) (hpc : s.pc = .polling ∨ s.pc = .joining)
    (hpipe : s.pipe = []) (hdone : s.toWrite = []) : Carried text (s.atEnd p) := by
  obtain ⟨later, hlater, rfl⟩ := prefix_of_decode hbytes hdecode
  rw [hpipe, hdone] at hlater
  obtain ⟨rfl, hstart⟩ := Prod.mk.inj (Option.some.inj hlater)
  have hnowriting : ∀ stdout, s.pc = .writing stdout → stdout = before ++ [] := by
    intro stdout hwriting
    rcases hpc with hpc | hpc <;> rw [hpc] at hwriting <;> cases hwriting
  rw [atEnd, if_neg (not_not.mpr hstart), if_neg (by rw [hwaiting]; decide)]
  split
  · rename_i hbuffer
    refine .ended rfl hdone hpipe ?_ hnowriting
    rw [← hbefore, hbuffer, List.append_nil, List.append_nil]
  · refine .reading rfl hbytes hdecode hwaiting ?_ hpc
    rw [List.append_nil, List.flatten_append, List.flatten_singleton, hbefore]

theorem inv_step (hno : '\r' ∉ text) (h : Inv append old text s) (hok : InTime s a)
    (hstep : step capacity append s a = some s') : Inv append old text s' := by
  cases moves_of_step hstep with
  | @childWrite n hn hle _ =>
      have hrunning : ¬s.exited = true := by
        intro hexited
        rw [h.exited hexited] at hle
        exact absurd hle (Nat.not_le.mpr hn)
      refine { h with exited := fun hexited => absurd hexited hrunning, carried := ?_ }
      cases h.carried with
      | reading hpump hbytes hdecode hwaiting hbefore hpc =>
          refine .reading hpump ?_ hdecode hwaiting hbefore hpc
          rw [hbytes, List.append_assoc, List.take_append_drop]
      | ended _ hdone _ _ _ =>
          rw [hdone] at hle
          exact absurd hle (Nat.not_le.mpr hn)
  | childExit hdone _ =>
      refine { h with exited := fun _ => hdone, polled := fun _ => rfl, carried := ?_ }
      cases h.carried with
      | reading hpump hbytes hdecode hwaiting hbefore hpc =>
          exact .reading hpump hbytes hdecode hwaiting hbefore hpc
      | ended hpump hdone hpipe htext hstdout => exact .ended hpump hdone hpipe htext hstdout
  | @pumpRead n p hpump _ _ _ _ =>
      obtain ⟨front, before, hbytes, hdecode, hwaiting, hbefore, hpc⟩ :=
        carried_pump h.carried hpump
      exact { h with carried := carried_read hno hbytes hdecode hwaiting hbefore hpc }
  | @pumpLine p line rest hpump hsplit =>
      obtain ⟨hbuffer, -⟩ := splitLine?_eq_some hsplit
      obtain ⟨front, before, hbytes, hdecode, hwaiting, hbefore, hpc⟩ :=
        carried_pump h.carried hpump
      refine { h with carried := .reading rfl hbytes hdecode hwaiting ?_ hpc }
      rw [List.flatten_append, List.flatten_singleton, List.append_assoc, ← hbuffer, hbefore]
  | @pumpEnd p hpump _ hpipe hexited =>
      obtain ⟨front, before, hbytes, hdecode, hwaiting, hbefore, hpc⟩ :=
        carried_pump h.carried hpump
      have hcarried : Carried text (s.atEnd p) :=
        carried_atEnd hbytes hdecode hwaiting hbefore hpc hpipe (h.exited hexited)
      -- The helper changes nothing but its stream and the chunks.
      have hrest : (s.atEnd p).exited = s.exited ∧ (s.atEnd p).toWrite = s.toWrite
          ∧ (s.atEnd p).pc = s.pc ∧ (s.atEnd p).file = s.file := by
        rw [atEnd]
        split_ifs <;> exact ⟨rfl, rfl, rfl, rfl⟩
      obtain ⟨hexited', hdone', hpc', hfile'⟩ := hrest
      constructor
      · rw [hexited', hdone']
        exact h.exited
      · rw [hexited', hpc']
        exact h.polled
      · exact hcarried
      · rw [hpc', hfile']
        exact h.kept
      · rw [hpc', hfile']
        exact h.written
  | poll hpc hexited =>
      have hfile : s.file = old := h.kept (hpc ▸ nofun)
      refine { h with
        polled := fun _ => hexited, carried := ?_, kept := fun _ => hfile, written := nofun }
      cases h.carried with
      | reading hpump hbytes hdecode hwaiting hbefore _ =>
          exact .reading hpump hbytes hdecode hwaiting hbefore (.inr rfl)
      | ended hpump hdone hpipe htext _ => exact .ended hpump hdone hpipe htext nofun
  | join hpc hpump =>
      have hfile : s.file = old := h.kept (hpc ▸ nofun)
      refine { h with
        polled := fun _ => h.polled (hpc ▸ nofun)
        carried := ?_
        kept := fun _ => hfile
        written := nofun }
      cases h.carried with
      | reading hpump' _ _ _ _ _ => cases hpump.symm.trans hpump'
      | ended _ hdone hpipe htext _ =>
          refine .ended hpump hdone hpipe htext ?_
          rintro _ ⟨⟩
          exact htext
  | joinTimeout _ _ => exact absurd rfl hok
  | @write stdout hpc =>
      have hfile : s.file = old := h.kept (hpc ▸ nofun)
      cases h.carried with
      | reading _ _ _ _ _ hpc' =>
          rcases hpc' with hpc' | hpc' <;> rw [hpc] at hpc' <;> cases hpc'
      | ended hpump hdone hpipe htext hstdout =>
          refine { h with
            polled := fun _ => h.polled (hpc ▸ nofun)
            carried := .ended hpump hdone hpipe htext nofun
            kept := fun hne => absurd rfl hne
            written := fun _ => ?_ }
          rw [← hfile, ← hstdout stdout hpc]

theorem inv_start (append : Bool) (old : List UInt8) (text : List Char) :
    Inv append old text (start old (encode text)) where
  exited := nofun
  polled hne := absurd rfl hne
  carried := @Carried.reading text _ .new [] [] rfl rfl rfl rfl rfl (.inl rfl)
  kept _ := rfl
  written := nofun

/-! ## Nothing blocks -/

/-- The helper always has something to do while there are bytes to read. -/
theorem pump_enabled {p : TextStream} (hpump : s.pump = some p) (hpipe : s.pipe ≠ []) :
    ∃ a, InTime s a ∧ step capacity append s a ≠ none := by
  cases hsplit : splitLine? p.buffer with
  | some split =>
      refine ⟨.pumpLine, nofun, ?_⟩
      simp only [step, hpump, hsplit, Option.map_some, ne_eq, reduceCtorEq, not_false_eq_true]
  | none =>
      have hpos := List.length_pos_of_ne_nil hpipe
      refine ⟨.pumpRead 1, nofun, ?_⟩
      simp only [step, hpump]
      rw [if_pos ⟨hsplit, Nat.one_pos, hpos, by decide⟩]
      exact nofun

/-- At the end of the file as well. -/
theorem pump_enabled_atEnd {p : TextStream} (hpump : s.pump = some p) (hexited : s.exited = true) :
    ∃ a, InTime s a ∧ step capacity append s a ≠ none := by
  by_cases hpipe : s.pipe = []
  · cases hsplit : splitLine? p.buffer with
    | some split =>
        refine ⟨.pumpLine, nofun, ?_⟩
        simp only [step, hpump, hsplit, Option.map_some, ne_eq, reduceCtorEq, not_false_eq_true]
    | none =>
        refine ⟨.pumpEnd, nofun, ?_⟩
        simp only [step, hpump]
        rw [if_pos ⟨hsplit, hpipe, hexited⟩]
        exact nofun
  · exact pump_enabled hpump hpipe

/-- Where nothing moves, the call has returned. -/
theorem returned_of_stuck (hcapacity : 0 < capacity) (h : Inv append old text s)
    (hstuck : ∀ a, InTime s a → step capacity append s a = none) : s.pc = .returned := by
  have hnone : ¬∃ a, InTime s a ∧ step capacity append s a ≠ none := by
    rintro ⟨a, hok, hmoves⟩
    exact hmoves (hstuck a hok)
  by_contra hpc
  refine hnone ?_
  by_cases hexited : s.exited = true
  · cases hmain : s.pc with
    | polling =>
        refine ⟨.poll, nofun, ?_⟩
        rw [step, if_pos ⟨hmain, hexited⟩]
        exact nofun
    | joining =>
        cases hpump : s.pump with
        | some p => exact pump_enabled_atEnd hpump hexited
        | none =>
            refine ⟨.join, nofun, ?_⟩
            rw [step, if_pos ⟨hmain, hpump⟩]
            exact nofun
    | writing stdout =>
        refine ⟨.write, nofun, ?_⟩
        simp only [step, hmain, ne_eq, reduceCtorEq, not_false_eq_true]
    | returned => exact absurd hmain hpc
  · by_cases hdone : s.toWrite = []
    · refine ⟨.childExit, nofun, ?_⟩
      rw [step, if_pos ⟨hdone, eq_false_of_ne_true hexited⟩]
      exact nofun
    · -- The process can write, or the pipe is full and the helper reads it.
      by_cases hfits : s.pipe.length + 1 ≤ capacity
      · refine ⟨.childWrite 1, nofun, ?_⟩
        rw [step, if_pos ⟨Nat.one_pos, List.length_pos_of_ne_nil hdone, hfits⟩]
        exact nofun
      · have hpipe : s.pipe ≠ [] := by
          rintro hpipe
          rw [hpipe, List.length_nil] at hfits
          omega
        cases h.carried with
        | reading hpump _ _ _ _ _ => exact pump_enabled hpump hpipe
        | ended _ hdone' _ _ _ => exact absurd hdone' hdone

/-- A run that has ended can be found. -/
theorem exists_stuck (s₀ : RedirectRun) :
    ∃ s, Reach (step capacity append) InTime s₀ s
      ∧ ∀ a, InTime s a → step capacity append s a = none := by
  have hfrom : ∀ s, Reach (step capacity append) InTime s₀ s →
      ∃ s', Reach (step capacity append) InTime s₀ s'
        ∧ ∀ a, InTime s' a → step capacity append s' a = none := by
    intro s
    induction acc_step capacity append s with
    | intro s _ ih =>
        intro hs
        by_cases hstuck : ∀ a, InTime s a → step capacity append s a = none
        · exact ⟨s, hs, hstuck⟩
        · obtain ⟨a, hmoves⟩ := not_forall.mp hstuck
          obtain ⟨hok, hmoves⟩ := Classical.not_imp.mp hmoves
          obtain ⟨s', hs'⟩ := Option.ne_none_iff_exists'.mp hmoves
          exact ih s' ⟨a, hok, hs'⟩ (.next hs hok hs')
  exact hfrom s₀ .start

end RedirectRun

open RedirectRun

variable {capacity : ℕ} {append : Bool} {old bytes : List UInt8}

/-- **Redirection is faithful** to the bytes that are UTF-8 without a
carriage return, and to no others. -/
theorem faithful_iff (hcapacity : 0 < capacity) :
    Faithful capacity append old bytes ↔ ∃ text, bytes = encode text ∧ '\r' ∉ text := by
  constructor
  · intro h
    obtain ⟨s, hs, hstuck⟩ := exists_stuck (.start old bytes)
    obtain ⟨hpc, -, -, hfile⟩ := h.returns s hs hstuck
    have hprinted : Printed append old s :=
      hs.invariant (Printed append old) (printed_start append old bytes)
        fun _ _ _ h _ hstep => printed_step h hstep
    obtain ⟨text, hno, hwritten⟩ := hprinted.written hpc
    exact ⟨text, List.append_cancel_left (hfile.symm.trans hwritten), hno⟩
  · rintro ⟨text, rfl, hno⟩
    refine ⟨acc_step _ _ _, fun s hs hstuck => ?_⟩
    have hinv : Inv append old text s :=
      hs.invariant (Inv append old text) (inv_start append old text)
        fun _ _ _ h hok hstep => inv_step hno h hok hstep
    have hpc := returned_of_stuck hcapacity hinv hstuck
    have hread : s.toWrite = [] ∧ s.pipe = [] := by
      cases hinv.carried with
      | reading _ _ _ _ _ hpc' =>
          rcases hpc' with hpc' | hpc' <;> rw [hpc] at hpc' <;> cases hpc'
      | ended _ hdone hpipe _ _ => exact ⟨hdone, hpipe⟩
    exact ⟨hpc, hread.1, hread.2, hinv.written hpc⟩

theorem faithful_ok : 0 < 65536 ∧ Faithful 65536 false [] [0x6f, 0x6b, 0x0a] :=
  ⟨by decide, (faithful_iff (by decide)).mpr ⟨['o', 'k', '\n'], rfl, by decide⟩⟩

/-! ## `\r\n`, and bytes that are no UTF-8 -/

theorem stuck_of_returned {s : RedirectRun} (hpc : s.pc = .returned) (hdone : s.toWrite = [])
    (hexited : s.exited = true) (hpump : s.pump = none) (a : RedirectStep) :
    step capacity append s a = none := by
  cases hstep : step capacity append s a with
  | none => rfl
  | some s' =>
      cases moves_of_step hstep with
      | childWrite hn hle _ =>
          rw [hdone] at hle
          exact absurd hle (Nat.not_le.mpr hn)
      | childExit _ hrunning => cases hexited.symm.trans hrunning
      | pumpRead hpump' _ _ _ _ => cases hpump.symm.trans hpump'
      | pumpLine hpump' _ => cases hpump.symm.trans hpump'
      | pumpEnd hpump' _ _ _ => cases hpump.symm.trans hpump'
      | poll hpc' _ => cases hpc.symm.trans hpc'
      | join hpc' _ => cases hpc.symm.trans hpc'
      | joinTimeout hpc' _ => cases hpc.symm.trans hpc'
      | write hpc' => cases hpc.symm.trans hpc'

/-- The helper ends at a byte that is no UTF-8, the process fills the pipe
and waits, and the thread of the command waits for the process. -/
theorem blocked_on_full_pipe (append : Bool) (old : List UInt8) (hcapacity : 0 < capacity)
    {rest : List UInt8} (hrest : capacity < rest.length) :
    ∃ s, Reach (step capacity append) InTime (.start old (0xff :: rest)) s
      ∧ (∀ a, step capacity append s a = none) ∧ s.pc = .polling := by
  let read : RedirectRun := ⟨rest, false, [], none, [], .polling, old⟩
  let full : RedirectRun :=
    ⟨rest.drop capacity, false, rest.take capacity, none, [], .polling, old⟩
  have hfirst : step capacity append (.start old (0xff :: rest)) (.childWrite 1)
      = some ⟨rest, false, [0xff], some .new, [], .polling, old⟩ :=
    if_pos ⟨Nat.one_pos, Nat.succ_le_succ (Nat.zero_le _), hcapacity⟩
  have hread : step capacity append ⟨rest, false, [0xff], some .new, [], .polling, old⟩
      (.pumpRead 1) = some read := rfl
  have hfill : step capacity append read (.childWrite capacity) = some full :=
    if_pos ⟨hcapacity, hrest.le, (Nat.zero_add capacity).le⟩
  have hwrites : ∀ s n, InTime s (.childWrite n) := fun _ _ => nofun
  have hreads : InTime ⟨rest, false, [0xff], some .new, [], .polling, old⟩ (.pumpRead 1) := nofun
  have hrun := Reach.next (.next (.next .start (hwrites _ 1) hfirst) hreads hread)
    (hwrites _ capacity) hfill
  refine ⟨full, hrun, ?_, rfl⟩
  intro a
  cases hstep : step capacity append full a with
  | none => rfl
  | some s' =>
      cases moves_of_step hstep with
      | childWrite hn _ hfits =>
          rw [List.length_take, Nat.min_eq_left hrest.le] at hfits
          omega
      | childExit hdone _ =>
          have hle := List.drop_eq_nil_iff.mp hdone
          omega
      | pumpRead hpump _ _ _ _ => cases hpump
      | pumpLine hpump _ => cases hpump
      | pumpEnd hpump _ _ _ => cases hpump
      | poll _ hexited => cases hexited
      | join hpc _ => cases hpc
      | joinTimeout hpc _ => cases hpc
      | write hpc => cases hpc

/-- `a\r\nb` loses its carriage return; and a process that writes 64 KiB
after a byte that is no UTF-8 never ends. -/
theorem return_lost_invalid_blocks :
    ¬Faithful 65536 false [] [0x61, 0x0d, 0x0a, 0x62]
      ∧ ¬Faithful 65536 false [] (0xff :: List.replicate 65537 0x61) := by
  constructor
  · intro h
    have hrun := Reach.of_replay .start (show replay (step 65536 false) InTime
      (.start [] [0x61, 0x0d, 0x0a, 0x62])
      [.childWrite 4, .childExit, .pumpRead 4, .pumpLine, .pumpEnd, .pumpEnd, .poll, .join, .write]
        = some ⟨[], true, [], none, [['a', '\n'], ['b']], .returned, [0x61, 0x0a, 0x62]⟩ from rfl)
    have hfile := (h.returns _ hrun fun a _ => stuck_of_returned rfl rfl rfl rfl a).2.2.2
    exact absurd hfile (by decide)
  · intro h
    obtain ⟨s, hs, hstuck, hpc⟩ := blocked_on_full_pipe false []
      (show 0 < 65536 by decide) (show 65536 < (List.replicate 65537 (0x61 : UInt8)).length by
        rw [List.length_replicate]
        decide)
    obtain ⟨hreturned, -⟩ := h.returns s hs fun a _ => hstuck a
    cases hpc.symm.trans hreturned

end Zmux
