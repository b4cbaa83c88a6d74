import Zmux.AtomicReplace
import Zmux.CuratedCatalog
import Zmux.JsonDump

/-!
# The database file of zpip

`_save_db` writes the installed database to `packages.tmp`, has the disk
take it and renames it to `packages.json`; `_load_db` reads that file, and
takes anything it cannot read for an empty database. So a half-written
file would lose every record without a word.

It never comes to that (`load_after_run`): whatever a run of saves meets,
an operation that raises, the death of the app in the middle of a write or
a loss of power, the next `_load_db` returns the database of the last save
that was renamed, or after a loss of power that of the last rename which
was on the disk. The run is one of `AtomicReplace`; what it needs from
`json` is that the text of a database is read back as the same dict.
-/

namespace Zmux

open CuratedCatalog (Exc Interpreter loads readText)
open Json (Sendable dump dumpedFields get? sortKeys)

namespace ZpipDatabase

abbrev Fields := List (Codes × Json)

variable (py : Interpreter)

/-- A dict that `json.dump` writes and the interpreter can read again. -/
structure Database where
  fields : Fields
  keys : (fields.map Prod.fst).Nodup
  sendable : Sendable (.object fields)
  shallow : py.tooDeep (dump (.object fields)) = false
  digits :
    Json.within py.maxDigits (dump (.object fields)).length (sortKeys (.object fields)) = true

variable {py}

/-- The bytes that `_save_db` writes. -/
def Database.text (d : Database py) : List UInt8 := WsControl.encode (dump (.object d.fields))

variable (py)

/-- `_load_db`, of a file with these bytes; `none` is no file. -/
def loadDb (file : Option (List UInt8)) : Except Exc Fields :=
  let data : Except Exc Json :=
    match file with
    | none => .error .osError
    | some bytes => (readText bytes).bind (loads py)
  match data with
  | .ok (.object fields) => .ok fields
  | .ok _ => .ok []
  | .error .osError => .ok []
  | .error .valueError => .ok []
  | .error e => .error e

/-- The steps of `_save_db`, and what may come between them. -/
abbrev saveStep : AtomicReplace.State (Database py) UInt8 →
    AtomicReplace.Action (Database py) UInt8 → Option (AtomicReplace.State (Database py) UInt8) :=
  AtomicReplace.step Database.text

variable {py}

/-- The fields of what a run has saved. -/
def saved : Option (Database py) → Fields
  | none => []
  | some d => d.fields

theorem loads_dump (d : Database py) :
    loads py (dump (.object d.fields)) = .ok (.object (dumpedFields d.fields)) := by
  have hwithin := d.digits
  rw [loads, d.shallow, if_neg Bool.false_ne_true, Json.parse_dump d.sendable]
  rw [Json.sortKeys] at hwithin ⊢
  rw [Option.filter, hwithin, if_pos rfl]
  rfl

theorem loadDb_text (d : Database py) : loadDb py (some d.text) = .ok (dumpedFields d.fields) := by
  have hread : readText d.text = .ok (dump (.object d.fields)) :=
    CuratedCatalog.readText_encode (d.sendable.sorted.return_notMem 0)
  have hloads : (readText d.text).bind (loads py) = .ok (.object (dumpedFields d.fields)) := by
    rw [hread]
    exact loads_dump d
  simp only [loadDb, hloads]

/-- After any run of saves the database is that of the last one that took
effect. -/
theorem load_after_run {actions : List (AtomicReplace.Action (Database py) UInt8)}
    {s : AtomicReplace.State (Database py) UInt8}
    (h : replay (saveStep py) Free AtomicReplace.start actions = some s) :
    ∃ fields, loadDb py s.volume.read = .ok fields ∧ ∀ key, get? fields key =
      (get? (saved (actions.foldl AtomicReplace.Register.step AtomicReplace.Register.start).value)
        key).map sortKeys := by
  rw [AtomicReplace.read_replayed h]
  cases (actions.foldl AtomicReplace.Register.step AtomicReplace.Register.start).value with
  | none => exact ⟨[], rfl, fun _ => rfl⟩
  | some d => exact ⟨dumpedFields d.fields, loadDb_text d, Json.get?_dumpedFields d.keys⟩

/-- An interpreter without limits. -/
def unlimited : Interpreter := ⟨none, fun _ => false⟩

/-- A database with one package. -/
def onePackage (size : ℤ) : Database unlimited where
  fields := [(codes "six", .object [(codes "size", .int size)])]
  keys := List.nodup_singleton _
  sendable := by
    have hkey : ∀ name ∈ ["six", "size"], Json.IsText (codes name) := by decide
    refine .object (List.forall_mem_singleton.mpr (hkey _ (by decide)))
      (List.forall_mem_singleton.mpr ?_)
    exact .object (List.forall_mem_singleton.mpr (hkey _ (by decide)))
      (List.forall_mem_singleton.mpr (.int _))
  shallow := rfl
  digits := by
    simp [unlimited, dump, sortKeys, Json.sortValues, Json.sortFields, Json.dumpValue, Json.within,
      Json.withinFields, Json.newlineIndent, Json.Layout.indented]

/-- A save that takes effect, and one that the loss of power ends while
its text is half written. -/
def interrupted : List (AtomicReplace.Action (Database unlimited) UInt8) :=
  [.save (onePackage 1), .write (onePackage 1).text.length, .fsync, .replace, .persist,
    .save (onePackage 2), .write 9, .powerLoss (fun _ => []) none]

theorem load_after_power_loss : ∃ s fields,
    replay (saveStep unlimited) Free AtomicReplace.start interrupted = some s ∧
      loadDb unlimited s.volume.read = .ok fields ∧ ∀ key, get? fields key =
        (get? (onePackage 1).fields key).map sortKeys := by
  have hrun : (replay (saveStep unlimited) Free AtomicReplace.start interrupted).isSome = true := by
    simp [interrupted, replay, Free, AtomicReplace.start, AtomicReplace.step,
      AtomicReplace.Volume.Leftover]
  obtain ⟨s, hs⟩ := Option.isSome_iff_exists.mp hrun
  obtain ⟨fields, hfields, hget⟩ := load_after_run hs
  exact ⟨s, fields, hs, hfields, hget⟩

end ZpipDatabase

end Zmux
