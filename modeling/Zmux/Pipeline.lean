import Zmux.Shlex

/-!
# The pipeline parser

The first half of `_exec_subprocess_inner` of `python_shell.py`: a command
line is lexed, split into stages at `|`, and the redirections of the
stages are taken out. `build_command_line` of `linuxenv.py` hands it
`shlex.join` of a `proot` command.

Operators are recognised among the tokens, and a token does not tell
whether it was quoted. So no operator is ever an argument
(`parse_stages`), and a joined command is parsed back exactly if none of
its words is one (`parse_join_iff`).
-/

namespace Zmux

open Shlex (Word)

namespace Pipeline

def pipe : Word := ['|']
def input : Word := ['<']
def output : Word := ['>']
def appendTo : Word := ['>', '>']

/-- The words that the parser takes for itself. -/
def operators : List Word := [pipe, input, output, appendTo]

/-- The `ValueError` of the lexer, or a result with exit code 2. -/
inductive ParseError where
  | lexer (error : Shlex.LexError)
  | invalidPipeline
  | missingTarget (token : Word)
  | notAtEdge
  | invalidCommand
deriving DecidableEq

def ParseError.text : ParseError → List Char
  | .lexer error => error.text.toList
  | .invalidPipeline => "invalid pipeline\n".toList
  | .missingTarget token => "missing redirection target after ".toList ++ token ++ ['\n']
  | .notAtEdge => "redirection must be at pipeline edge\n".toList
  | .invalidCommand => "invalid command\n".toList

/-- `input_file`, `output_file` and `append`; `π` is the type of paths. -/
structure Redirects (π : Type*) where
  inputFile : Option π
  outputFile : Option π
  append : Bool
deriving DecidableEq

structure Parsed (π : Type*) where
  stages : List (List Word)
  redirects : Redirects π
deriving DecidableEq

def Redirects.none {π : Type*} : Redirects π := ⟨.none, .none, false⟩

/-- The loop over the tokens: `stages` and `current`. -/
def splitStages : List Word → (current : List Word) → List (List Word)
  | [], current => [current]
  | token :: tokens, current =>
    if token = pipe then current :: splitStages tokens []
    else splitStages tokens (current ++ [token])

section Parser

variable {π : Type*} (path : Word → π)

/-- The `while` loop over the tokens of one stage. -/
def scanStage (isFirst isLast : Bool) :
    List Word → (argv : List Word) → Redirects π → Except ParseError (List Word × Redirects π)
  | [], argv, r => .ok (argv, r)
  | [token], argv, r =>
    if token ∈ [input, output, appendTo] then .error (.missingTarget token)
    else .ok (argv ++ [token], r)
  | token :: target :: rest, argv, r =>
    if token ∈ [input, output, appendTo] then
      if token = input ∧ isFirst = true then
        scanStage isFirst isLast rest argv { r with inputFile := some (path target) }
      else if token ∈ [output, appendTo] ∧ isLast = true then
        scanStage isFirst isLast rest argv
          { r with outputFile := some (path target), append := decide (token = appendTo) }
      else .error .notAtEdge
    else scanStage isFirst isLast (target :: rest) (argv ++ [token]) r

/-- The `for` loop over the stages. -/
def scanStages : (isFirst : Bool) → List (List Word) → Redirects π →
    Except ParseError (Parsed π)
  | _, [], r => .ok ⟨[], r⟩
  | isFirst, stage :: rest, r => do
    let (argv, r) ← scanStage path isFirst rest.isEmpty stage [] r
    if argv.isEmpty then .error .invalidCommand
    else
      let parsed ← scanStages false rest r
      .ok ⟨argv :: parsed.stages, parsed.redirects⟩

def parse (line : List Char) : Except ParseError (Parsed π) :=
  match Shlex.lex ['|', '<', '>'] line with
  | .error error => .error (.lexer error)
  | .ok tokens =>
    let stages := splitStages tokens []
    if stages.any List.isEmpty then .error .invalidPipeline
    else scanStages path true stages .none

/-! ## Operators are never arguments -/

variable {path}

theorem mem_splitStages {tokens : List Word} : ∀ {current stage : List Word},
    pipe ∉ current → stage ∈ splitStages tokens current → pipe ∉ stage := by
  induction tokens with
  | nil =>
      intro current stage hcurrent hmem
      rw [List.mem_singleton.mp hmem]
      exact hcurrent
  | cons token tokens ih =>
      intro current stage hcurrent hmem
      rw [splitStages] at hmem
      split at hmem
      · rcases List.mem_cons.mp hmem with rfl | hmem
        · exact hcurrent
        · exact ih List.not_mem_nil hmem
      · rename_i htoken
        refine ih (fun hin => ?_) hmem
        rcases List.mem_append.mp hin with hin | hin
        · exact hcurrent hin
        · exact htoken (List.mem_singleton.mp hin).symm

theorem splitStages_of_plain {tokens : List Word} : ∀ {current : List Word},
    pipe ∉ tokens → splitStages tokens current = [current ++ tokens] := by
  induction tokens with
  | nil =>
      intro current _
      rw [splitStages, List.append_nil]
  | cons token tokens ih =>
      intro current hplain
      have htoken : token ≠ pipe := fun h => hplain (h ▸ List.mem_cons_self ..)
      rw [splitStages, if_neg htoken, ih fun h => hplain (List.mem_cons_of_mem _ h),
        List.append_assoc]
      rfl

/-- The arguments of a stage are words of it that are no redirection. -/
theorem mem_scanStage {isFirst isLast : Bool} {stage argv argv' : List Word}
    {r r' : Redirects π} (h : scanStage path isFirst isLast stage argv r = .ok (argv', r')) :
    ∀ word ∈ argv', word ∈ argv ∨ word ∈ stage ∧ word ∉ [input, output, appendTo] := by
  fun_induction scanStage path isFirst isLast stage argv r with
  | case1 argv r =>
      obtain ⟨rfl, -⟩ := Prod.mk.inj (Except.ok.inj h)
      exact fun word hword => Or.inl hword
  | case2 => cases h
  | case3 token argv r htoken =>
      obtain ⟨rfl, -⟩ := Prod.mk.inj (Except.ok.inj h)
      intro word hword
      rcases List.mem_append.mp hword with hword | hword
      · exact Or.inl hword
      · rw [List.mem_singleton.mp hword]
        exact Or.inr ⟨List.mem_singleton_self token, htoken⟩
  | case4 token target rest argv r htoken hfirst ih =>
      intro word hword
      rcases ih h word hword with hold | ⟨hrest, hplain⟩
      · exact Or.inl hold
      · exact Or.inr ⟨List.mem_cons_of_mem _ (List.mem_cons_of_mem _ hrest), hplain⟩
  | case5 token target rest argv r htoken hfirst hlast ih =>
      intro word hword
      rcases ih h word hword with hold | ⟨hrest, hplain⟩
      · exact Or.inl hold
      · exact Or.inr ⟨List.mem_cons_of_mem _ (List.mem_cons_of_mem _ hrest), hplain⟩
  | case6 => cases h
  | case7 token target rest argv r htoken ih =>
      intro word hword
      rcases ih h word hword with hold | ⟨hrest, hplain⟩
      · rcases List.mem_append.mp hold with hold | hold
        · exact Or.inl hold
        · rw [List.mem_singleton.mp hold]
          exact Or.inr ⟨List.mem_cons_self .., htoken⟩
      · exact Or.inr ⟨List.mem_cons_of_mem _ hrest, hplain⟩

/-- A stage without redirections is its own argument list. -/
theorem scanStage_of_plain {isFirst isLast : Bool} {stage : List Word} {r : Redirects π} :
    ∀ {argv : List Word}, (∀ word ∈ stage, word ∉ [input, output, appendTo]) →
      scanStage path isFirst isLast stage argv r = .ok (argv ++ stage, r) := by
  induction stage with
  | nil =>
      intro argv _
      rw [scanStage, List.append_nil]
  | cons token rest ih =>
      intro argv hplain
      have htoken := hplain token (List.mem_cons_self ..)
      cases rest with
      | nil => rw [scanStage, if_neg htoken]
      | cons target rest =>
          rw [scanStage, if_neg htoken, ih fun w hw => hplain w (List.mem_cons_of_mem _ hw),
            List.append_assoc]
          rfl

theorem scanStages_plain {stages : List (List Word)} :
    ∀ {isFirst : Bool} {r : Redirects π} {p : Parsed π},
      scanStages path isFirst stages r = .ok p →
        ∀ argv ∈ p.stages, ∀ word ∈ argv,
          word ∉ [input, output, appendTo] ∧ ∃ stage ∈ stages, word ∈ stage := by
  induction stages with
  | nil =>
      intro isFirst r p h
      cases h
      exact fun argv hargv => absurd hargv List.not_mem_nil
  | cons stage rest ih =>
      intro isFirst r p h
      rw [scanStages] at h
      cases hstage : scanStage path isFirst rest.isEmpty stage [] r with
      | error error =>
          rw [hstage] at h
          cases h
      | ok scanned =>
          obtain ⟨argv, r'⟩ := scanned
          rw [hstage] at h
          change (if argv.isEmpty then _ else _) = _ at h
          split at h
          · cases h
          · cases hrest : scanStages path false rest r' with
            | error error =>
                rw [hrest] at h
                cases h
            | ok parsed =>
                rw [hrest] at h
                cases h
                intro argv' hargv' word hword
                rcases List.mem_cons.mp hargv' with rfl | hargv'
                · rcases mem_scanStage hstage word hword with hnil | ⟨hmem, hplain⟩
                  · exact absurd hnil List.not_mem_nil
                  · exact ⟨hplain, stage, List.mem_cons_self .., hmem⟩
                · obtain ⟨hplain, from_, hfrom, hmem⟩ := ih hrest argv' hargv' word hword
                  exact ⟨hplain, from_, List.mem_cons_of_mem _ hfrom, hmem⟩

/-- **No operator is an argument**, quoted or not. -/
theorem parse_stages {line : List Char} {p : Parsed π} (h : parse path line = .ok p) :
    ∀ argv ∈ p.stages, ∀ word ∈ argv, word ∉ operators := by
  intro argv hargv word hword
  rw [parse] at h
  split at h
  · cases h
  · rename_i tokens htokens
    dsimp only at h
    split at h
    · cases h
    · obtain ⟨hredirect, stage, hstage, hmem⟩ := scanStages_plain h argv hargv word hword
      have hpipe : word ≠ pipe := by
        rintro rfl
        exact mem_splitStages List.not_mem_nil hstage hmem
      intro hop
      rcases List.mem_cons.mp hop with rfl | hop
      · exact hpipe rfl
      · exact hredirect hop

theorem parse_of_lex {line : List Char} {words : List Word} (hne : words ≠ [])
    (hlex : Shlex.lex ['|', '<', '>'] line = .ok words)
    (hplain : ∀ word ∈ words, word ∉ operators) :
    parse path line = .ok ⟨[words], .none⟩ := by
  have hpipe : pipe ∉ words := fun h => hplain pipe h (by decide)
  have hredirect : ∀ word ∈ words, word ∉ [input, output, appendTo] :=
    fun word hword hop => hplain word hword (List.mem_cons_of_mem _ hop)
  have hsplit : splitStages words [] = [words] := splitStages_of_plain hpipe
  rw [parse, hlex]
  dsimp only
  rw [hsplit, if_neg (by simpa using hne), scanStages, scanStage_of_plain hredirect]
  change (if ([] ++ words).isEmpty then _ else _) = _
  rw [if_neg (by simpa using hne)]
  rfl

theorem separate : Shlex.Separate ['|', '<', '>'] where
  apostrophe := by decide
  safe := by
    intro c hc
    simp only [List.mem_cons, List.not_mem_nil, or_false] at hc
    rcases hc with rfl | rfl | rfl <;> decide

/-- **A joined command** is parsed back as one stage without redirections
exactly if none of its words is an operator. -/
theorem parse_join_iff (words : List Word) (hne : words ≠ []) :
    parse path (Shlex.join words) = .ok ⟨[words], .none⟩ ↔ ∀ word ∈ words, word ∉ operators := by
  constructor
  · exact fun h => parse_stages h words (List.mem_singleton_self words)
  · exact parse_of_lex hne (Shlex.lex_join separate words)

end Parser

/-- Operators inside of longer arguments do no harm. -/
theorem parse_join_plain :
    parse id (Shlex.join ["echo".toList, "a|b > c".toList, "<<".toList])
      = .ok ⟨[["echo".toList, "a|b > c".toList, "<<".toList]], .none⟩ :=
  (parse_join_iff _ (by decide)).mpr (by decide)

/-- The quoted argument of `echo '>' f` opens the file `f`. -/
theorem parse_join_redirects :
    parse id (Shlex.join ["echo".toList, ">".toList, "f".toList])
        = .ok ⟨[["echo".toList]], ⟨none, some "f".toList, false⟩⟩ ∧
      parse id (Shlex.join ["echo".toList, ">".toList, "f".toList])
        ≠ .ok ⟨[["echo".toList, ">".toList, "f".toList]], .none⟩ := by
  decide

end Pipeline

end Zmux
