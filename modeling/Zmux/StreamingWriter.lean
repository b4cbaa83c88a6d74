import Zmux.LineEndings
import Zmux.Utf8

/-!
# The streaming writer

`StreamingWriter` of `streams.py` stands for `sys.stdout` and
`sys.stderr`. What is written waits in `pending` until it has a line
ending, or 256 characters, or until a flush, and goes out with the line
endings of a terminal.

The endings are made piece by piece, so what goes out is what the whole
text written at once would be exactly when no flush takes a text that ends
in CR while the next character written is LF (`emitted_iff`).
-/

namespace Zmux

/-- A character of a Python string: half of a surrogate pair is one. -/
inductive CodePoint where
  | scalar (c : Char)
  | surrogate (half : Fin 0x800)
deriving DecidableEq

namespace CodePoint

def cr : CodePoint := .scalar '\r'

def lf : CodePoint := .scalar '\n'

/-- `encode("utf-8", errors="replace")` of a character. -/
def encode : CodePoint → List UInt8
  | .scalar c => String.utf8EncodeChar c
  | .surrogate _ => String.utf8EncodeChar '?'

end CodePoint

abbrev PyText := List CodePoint

namespace PyText

/-- The text with the line endings of a terminal, encoded. -/
def payload (text : PyText) : List UInt8 :=
  (LineEndings.expand CodePoint.cr CodePoint.lf text).flatMap CodePoint.encode

/-- `text.rpartition("\n")` of a text that has a line ending: what is before
the last one, and what is behind it. -/
def rpartition (text : PyText) : PyText × PyText :=
  ((text.reverse.dropWhile (· ≠ CodePoint.lf)).tail.reverse,
    (text.reverse.takeWhile (· ≠ CodePoint.lf)).reverse)

end PyText

/-- `PARTIAL_FLUSH_THRESHOLD`. -/
def partialFlushThreshold : ℕ := 256

structure StreamingWriter where
  pending : PyText
  bufferText : List PyText
  /-- The calls of `emit`. -/
  emitted : List (List UInt8)

namespace StreamingWriter

def new : StreamingWriter := ⟨[], [], []⟩

def flush (w : StreamingWriter) : StreamingWriter :=
  if w.pending = [] then w
  else { w with pending := [], emitted := w.emitted ++ [w.pending.payload] }

/-- The writer after `write(text)`, and what it returns. -/
def write (text : PyText) (w : StreamingWriter) : StreamingWriter × ℕ :=
  if text = [] then (w, 0)
  else
    let w := { w with bufferText := w.bufferText ++ [text], pending := w.pending ++ text }
    if CodePoint.lf ∈ w.pending then
      let (head, pending) := w.pending.rpartition
      ({ w with
          pending
          emitted := w.emitted ++ [(head ++ [CodePoint.lf]).payload] }, text.length)
    else if partialFlushThreshold ≤ w.pending.length then (w.flush, text.length)
    else (w, text.length)

def getvalue (w : StreamingWriter) : PyText := w.bufferText.flatten

inductive Op where
  | write (text : PyText)
  | flush
deriving DecidableEq

def Op.text : Op → PyText
  | .write text => text
  | .flush => []

def step (w : StreamingWriter) : Op → StreamingWriter
  | .write text => (w.write text).1
  | .flush => w.flush

def run (w : StreamingWriter) (ops : List Op) : StreamingWriter := ops.foldl step w

/-- What the operations write. -/
def written (ops : List Op) : PyText := ops.flatMap Op.text

/-- The operation flushes: it is a flush, or a write that makes an
unfinished line too long. -/
def Flushes (pending : PyText) : Op → Prop
  | .flush => True
  | .write text => text ≠ [] ∧ CodePoint.lf ∉ pending ++ text
    ∧ partialFlushThreshold ≤ (pending ++ text).length

instance (pending : PyText) : DecidablePred (Flushes pending)
  | .flush => instDecidableTrue
  | .write _ => instDecidableAnd

/-! ## Pieces -/

/-- The text an operation takes off, and what stays pending. -/
def takes (pending : PyText) : Op → Option (PyText × PyText)
  | .flush => if pending = [] then none else some (pending, [])
  | .write text =>
    if text = [] then none
    else if CodePoint.lf ∈ pending ++ text then
      some ((pending ++ text).rpartition.1 ++ [CodePoint.lf], (pending ++ text).rpartition.2)
    else if partialFlushThreshold ≤ (pending ++ text).length then some (pending ++ text, [])
    else none

/-- All texts that are taken off. -/
def pieces (pending : PyText) : List Op → List PyText
  | [] => []
  | op :: ops =>
    match takes pending op with
    | some (piece, rest) => piece :: pieces rest ops
    | none => pieces (pending ++ op.text) ops

def pendingAfter (pending : PyText) (op : Op) : PyText :=
  match takes pending op with
  | some (_, rest) => rest
  | none => pending ++ op.text

theorem rpartition_eq {text : PyText} (h : CodePoint.lf ∈ text) :
    text.rpartition.1 ++ [CodePoint.lf] ++ text.rpartition.2 = text := by
  obtain ⟨behind, before, hsplit, hlast⟩ :=
    List.eq_append_cons_of_mem (List.mem_reverse.mpr h)
  have hbehind : ∀ c ∈ behind, decide (c ≠ CodePoint.lf) = true := fun c hc =>
    decide_eq_true fun heq => hlast (heq ▸ hc)
  have hstop : decide (CodePoint.lf ≠ CodePoint.lf) = false := rfl
  rw [PyText.rpartition, hsplit, List.dropWhile_append_of_pos hbehind,
    List.takeWhile_append_of_pos hbehind, List.dropWhile_cons_of_neg (by rw [hstop]; decide),
    List.takeWhile_cons_of_neg (by rw [hstop]; decide), ← List.reverse_reverse text, hsplit]
  simp

/-- What an operation does. -/
theorem step_eq (w : StreamingWriter) (op : Op) :
    (w.step op).pending = pendingAfter w.pending op
      ∧ (w.step op).getvalue = w.getvalue ++ op.text
      ∧ (w.step op).emitted.flatten = w.emitted.flatten
        ++ ((takes w.pending op).elim [] fun taken => taken.1.payload) := by
  cases op with
  | flush =>
      simp only [step, flush, pendingAfter, takes, Op.text, List.append_nil]
      split <;> simp [getvalue, *]
  | write text =>
      simp only [step, write, flush, pendingAfter, takes, Op.text]
      split
      · simp [getvalue, *]
      · split
        · simp [getvalue]
        · split
          · have hpending : w.pending ++ text ≠ [] := by simp [*]
            rw [if_neg hpending]
            simp [getvalue]
          · simp [getvalue]

theorem takes_cases {pending piece rest : PyText} {op : Op}
    (h : takes pending op = some (piece, rest)) :
    piece ++ rest = pending ++ op.text
      ∧ (Flushes pending op ∧ rest = [] ∨ piece.getLast? = some CodePoint.lf) := by
  cases op with
  | flush =>
      rw [takes] at h
      split at h
      · cases h
      · cases h
        exact ⟨rfl, Or.inl ⟨trivial, rfl⟩⟩
  | write text =>
      rw [takes] at h
      split at h
      · cases h
      · rename_i hne
        split at h
        · rename_i hline
          cases h
          exact ⟨rpartition_eq hline, Or.inr List.getLast?_concat⟩
        · rename_i hline
          split at h
          · rename_i hlong
            cases h
            exact ⟨List.append_nil _, Or.inl ⟨⟨hne, hline, hlong⟩, rfl⟩⟩
          · cases h

theorem pendingAfter_of_flushes {pending : PyText} {op : Op} (h : Flushes pending op) :
    pendingAfter pending op = [] := by
  cases op with
  | flush =>
      rw [pendingAfter, takes]
      by_cases hempty : pending = []
      · rw [if_pos hempty, hempty]
        rfl
      · rw [if_neg hempty]
  | write text =>
      obtain ⟨hne, hline, hlong⟩ := h
      rw [pendingAfter, takes, if_neg hne, if_neg hline, if_pos hlong]

theorem pieces_append (pending : PyText) (ops more : List Op) :
    pieces pending (ops ++ more)
      = pieces pending ops ++ pieces (ops.foldl pendingAfter pending) more := by
  induction ops generalizing pending with
  | nil => rfl
  | cons op ops ih =>
      rw [List.cons_append, pieces, pieces, List.foldl_cons, pendingAfter]
      cases takes pending op with
      | none => exact ih _
      | some taken => exact congrArg _ (ih _)

theorem written_cons (op : Op) (ops : List Op) : written (op :: ops) = op.text ++ written ops :=
  List.flatMap_cons ..

theorem written_append (ops more : List Op) : written (ops ++ more) = written ops ++ written more :=
  List.flatMap_append ..

/-- The pieces and what is still pending are what was pending and is written. -/
theorem pieces_flatten (pending : PyText) (ops : List Op) :
    (pieces pending ops).flatten ++ ops.foldl pendingAfter pending = pending ++ written ops := by
  induction ops generalizing pending with
  | nil => exact (List.append_nil _).symm
  | cons op ops ih =>
      rw [pieces, List.foldl_cons, pendingAfter, written_cons]
      cases htakes : takes pending op with
      | none => rw [← List.append_assoc, ← ih]
      | some taken =>
          rw [← List.append_assoc pending, ← (takes_cases htakes).1, List.append_assoc, ← ih,
            ← List.append_assoc]
          rfl

/-- The operations before a flush are all in the pieces. -/
theorem pieces_flatten_of_flushes {pending : PyText} {pre : List Op} {op : Op}
    (h : Flushes (pre.foldl pendingAfter pending) op) :
    (pieces pending (pre ++ [op])).flatten = pending ++ written (pre ++ [op]) := by
  rw [← pieces_flatten, List.foldl_append, List.foldl_cons, List.foldl_nil,
    pendingAfter_of_flushes h, List.append_nil]

theorem written_of_pieces (ops : List Op) :
    (pieces [] (ops ++ [.flush])).flatten = written ops := by
  refine (@pieces_flatten_of_flushes [] ops .flush trivial).trans ?_
  rw [List.nil_append, written_append]
  exact List.append_nil _

theorem run_eq (w : StreamingWriter) (ops : List Op) :
    (w.run ops).pending = ops.foldl pendingAfter w.pending
      ∧ (w.run ops).getvalue = w.getvalue ++ written ops
      ∧ (w.run ops).emitted.flatten
        = w.emitted.flatten ++ (pieces w.pending ops).flatMap PyText.payload := by
  induction ops generalizing w with
  | nil => exact ⟨rfl, (List.append_nil _).symm, (List.append_nil _).symm⟩
  | cons op ops ih =>
      obtain ⟨hpending, hvalue, hemitted⟩ := step_eq w op
      obtain ⟨ihpending, ihvalue, ihemitted⟩ := ih (w.step op)
      refine ⟨?_, ?_, ?_⟩
      · rw [List.foldl_cons, ← hpending]
        exact ihpending
      · rw [written_cons, ← List.append_assoc, ← hvalue]
        exact ihvalue
      · refine ihemitted.trans ?_
        rw [hemitted, hpending, List.append_assoc, pieces, pendingAfter]
        cases takes w.pending op with
        | none => rfl
        | some taken => rw [List.flatMap_cons]; rfl

/-! ## Cuts -/

/-- A cut between two pieces is made by a flush. -/
theorem exists_flush {pending : PyText} {ops : List Op} {front back : List PyText}
    (hpieces : pieces pending (ops ++ [.flush]) = front ++ back)
    (hcut : LineEndings.Cut CodePoint.cr CodePoint.lf front.flatten back.flatten) :
    ∃ pre op post, ops = pre ++ op :: post ∧ Flushes (pre.foldl pendingAfter pending) op
      ∧ LineEndings.Cut CodePoint.cr CodePoint.lf (pending ++ written (pre ++ [op]))
        (written post) := by
  induction ops generalizing pending front with
  | nil =>
      have hone : (pieces pending [.flush]).length ≤ 1 := by
        rw [pieces, takes]
        split <;> simp [pieces]
      have hfront : front ≠ [] := fun h => LineEndings.not_cut_nil (h ▸ hcut)
      have hback : back ≠ [] := fun h => by cases (h ▸ hcut).2
      rw [List.nil_append] at hpieces
      rw [hpieces, List.length_append] at hone
      have hfrontPos := List.length_pos_iff.mpr hfront
      have hbackPos := List.length_pos_iff.mpr hback
      omega
  | cons op ops ih =>
      rw [List.cons_append, pieces] at hpieces
      cases htakes : takes pending op with
      | none =>
          simp only [htakes] at hpieces
          obtain ⟨pre, op', post, rfl, hflushes, hlater⟩ := ih hpieces hcut
          refine ⟨op :: pre, op', post, rfl, ?_, ?_⟩
          · rwa [List.foldl_cons, pendingAfter, htakes]
          · rwa [List.cons_append, written_cons, ← List.append_assoc]
      | some taken =>
          obtain ⟨piece, rest⟩ := taken
          obtain ⟨htext, hwhy⟩ := takes_cases htakes
          simp only [htakes] at hpieces
          cases front with
          | nil => exact absurd hcut LineEndings.not_cut_nil
          | cons first front =>
              obtain ⟨rfl, hlater⟩ := List.cons.inj hpieces
              rw [List.flatten_cons] at hcut
              by_cases hempty : front.flatten = []
              · rw [hempty, List.append_nil] at hcut
                rcases hwhy with ⟨hflushes, rfl⟩ | hline
                · have hback := written_of_pieces ops
                  rw [hlater, List.append_eq, List.flatten_append, hempty, List.nil_append] at hback
                  refine ⟨[], op, ops, rfl, hflushes, ?_⟩
                  rw [List.nil_append, written_cons, ← List.append_assoc, ← htext, ← hback,
                    List.append_nil]
                  simpa [written] using hcut
                · cases hcut.1.symm.trans hline
              · have hlast : front.flatten.getLast? = some CodePoint.cr := by
                  rw [← hcut.1, List.getLast?_append_of_ne_nil _ hempty]
                obtain ⟨pre, op', post, rfl, hflushes, hlast⟩ := ih hlater ⟨hlast, hcut.2⟩
                refine ⟨op :: pre, op', post, rfl, ?_, ?_⟩
                · rwa [List.foldl_cons, pendingAfter, htakes]
                · rw [List.cons_append, written_cons, ← List.append_assoc, ← htext,
                    List.append_assoc]
                  exact hlast.append_left piece

theorem uncut_iff (ops : List Op) :
    (∀ front back, pieces [] (ops ++ [.flush]) = front ++ back →
        ¬ LineEndings.Cut CodePoint.cr CodePoint.lf front.flatten back.flatten)
      ↔ ∀ pre op post, ops = pre ++ op :: post → Flushes (new.run pre).pending op →
        ¬ LineEndings.Cut CodePoint.cr CodePoint.lf (written (pre ++ [op])) (written post) := by
  constructor
  · rintro h pre op post rfl hflushes hcut
    rw [(run_eq new pre).1, new] at hflushes
    refine h (pieces [] (pre ++ [op])) (pieces [] (post ++ [.flush])) ?_ ?_
    · rw [List.append_assoc, List.cons_append, List.append_cons, pieces_append,
        List.foldl_append, List.foldl_cons, List.foldl_nil, pendingAfter_of_flushes hflushes]
    · rwa [pieces_flatten_of_flushes hflushes, written_of_pieces, List.nil_append]
  · intro h front back hpieces hcut
    obtain ⟨pre, op, post, heq, hflushes, hlater⟩ := exists_flush hpieces hcut
    exact h pre op post heq ((run_eq new pre).1 ▸ hflushes) hlater

/-- **What goes out is the whole text, encoded at once, exactly when no
flush takes a text up to a CR and the next character written is LF.** -/
theorem emitted_iff (ops : List Op) :
    ((new.run (ops ++ [.flush])).emitted.flatten
        = (new.run (ops ++ [.flush])).getvalue.payload)
      ↔ ∀ pre op post, ops = pre ++ op :: post → Flushes (new.run pre).pending op →
        ¬ ((written (pre ++ [op])).getLast? = some CodePoint.cr
          ∧ (written post).head? = some CodePoint.lf) := by
  have hpieces := @LineEndings.flatMap_expand_iff _ _ _ CodePoint.cr CodePoint.lf CodePoint.encode
    (pieces [] (ops ++ [.flush])) (by decide) (by decide)
  rw [written_of_pieces] at hpieces
  have hwritten : written (ops ++ [.flush]) = written ops :=
    (written_append ..).trans (List.append_nil _)
  rw [(run_eq new _).2.1, (run_eq new _).2.2, hwritten]
  exact hpieces.trans (uncut_iff ops)

/-- A flush between CR and LF. -/
theorem emitted_twice :
    (new.run [.write [CodePoint.cr], .flush, .write [CodePoint.lf], .flush]).emitted.flatten
        = [13, 13, 10]
      ∧ (new.run [.write [CodePoint.cr], .flush, .write [CodePoint.lf], .flush]).emitted.flatten
        ≠ (new.run [.write [CodePoint.cr], .flush, .write [CodePoint.lf],
          .flush]).getvalue.payload := by
  decide

end StreamingWriter

end Zmux
