import CommandScript.Shell
import CommandScript.Proofs.Script.Blanks
import CommandScript.Proofs.Script.SinglePass

/-!
# Typed lines run as a script

The prompt loop takes in the lines typed in chunks, each the shortest run of lines that is complete,
and runs what is left of each once it is trimmed (`Shell.takeInAll_eq_runAll`). The commands that
come out are those of the lines joined into one script, if no chunk before the last ends in a
backslash that would hide the newline after it, and if trimming takes off only what the scanner
takes for blanks (`Shell.typed_lines_run_as_script`).
-/

namespace CommandScript

/-- What scripts that run one after another do. -/
def Builder.outcomes {σ : Type} (sub : Substitutor σ) :
    List String → σ → List (Except Stop (List Value × String)) × σ
  | [], s => ([], s)
  | script :: rest, s =>
    (outcomes sub rest (outcome sub script s).2).map ((outcome sub script s).1 ++ ·) id

namespace Shell

open Builder Lexeme

variable {κ σ : Type}

/-! ## Chunks -/

/-- The runs of lines that are taken in together, `pending` having been typed before: each is the
shortest that is complete, but the last may not be complete yet. -/
def chunksFrom : String → List String → List String
  | pending, [] => if pending.isEmpty then [] else [pending]
  | pending, line :: lines =>
    if isComplete (withLine pending line) then withLine pending line :: chunksFrom "" lines
    else chunksFrom (withLine pending line) lines

def chunks (lines : List String) : List String := chunksFrom "" lines

/-- The commands in the complete ones of some chunks. -/
def commands (chunks : List String) : List String := (chunks.filter isComplete).filterMap command?

/-- Takes in lines, one after another. Gives a status if it is time to end. -/
def takeInAll (engine : Engine κ) : String → List String → Act κ (Option Int)
  | _, [] => return none
  | pending, line :: lines => do
    match ← takeIn engine pending line with
    | .inl pending => takeInAll engine pending lines
    | .inr status => return some status

/-- Runs commands, one after another. Gives a status if it is time to end. -/
def runAll (engine : Engine κ) : List String → Act κ (Option Int)
  | [] => return none
  | command :: rest => do
    match ← runTyped engine command with
    | some status => return some status
    | none => runAll engine rest

theorem commands_cons_complete {chunk : String} (h : isComplete chunk = true) (rest : List String) :
    commands (chunk :: rest) = (command? chunk).toList ++ commands rest := by
  rw [commands, List.filter_cons_of_pos h, List.filterMap_cons]
  cases command? chunk <;> rfl

/-- The lines are either none or not complete yet. -/
def Pending (lines : String) : Prop := lines = "" ∨ isComplete lines = false

theorem commands_chunksFrom_nil {pending : String} (h : Pending pending) :
    commands (chunksFrom pending []) = [] := by
  rw [chunksFrom]
  rcases h with rfl | h
  · rfl
  · split
    · rfl
    · simp [commands, h]

/-- The loop runs the commands of the chunks. -/
theorem takeInAll_eq_runAll (engine : Engine κ) {pending : String} (h : Pending pending)
    (lines : List String) :
    takeInAll engine pending lines = runAll engine (commands (chunksFrom pending lines)) := by
  induction lines generalizing pending with
  | nil =>
    rw [commands_chunksFrom_nil h]
    rfl
  | cons line lines ih =>
    rw [takeInAll, takeIn, chunksFrom]
    cases hcomplete : isComplete (withLine pending line) with
    | false => simpa using ih (.inr hcomplete)
    | true =>
      rw [if_pos rfl, commands_cons_complete hcomplete]
      cases hcommand : command? (withLine pending line) with
      | none => simpa using ih (.inl rfl)
      | some command =>
        have ih : takeInAll engine "" lines = _ := ih (.inl rfl)
        simp only [Bool.not_true, Bool.false_eq_true, if_false, bind_assoc, Option.toList_some,
          List.singleton_append, runAll]
        refine bind_congr fun status? => ?_
        cases status? with
        | none => simpa using ih
        | some status => simp

/-! ## Trimming -/

/-- Trimming takes off only what the scanner takes for blanks, and no blank that is escaped. -/
def trimsBlanks (chunk : String) : Bool :=
  let cs := chunk.toList
  let trail := ((Text.trimStart Text.isBlank cs).reverse.takeWhile Text.isBlank).reverse
  (cs.takeWhile Text.isBlank).all isSpaceOrNewline && trail.all isSpaceOrNewline &&
    (trail.isEmpty || !escaping (Text.trim chunk).toList)

theorem eq_trimmed (chunk : String) :
    chunk.toList = chunk.toList.takeWhile Text.isBlank ++ ((Text.trim chunk).toList ++
      ((Text.trimStart Text.isBlank chunk.toList).reverse.takeWhile Text.isBlank).reverse) := by
  have hstart := List.takeWhile_append_dropWhile (p := Text.isBlank) (l := chunk.toList)
  have hend := List.takeWhile_append_dropWhile (p := Text.isBlank)
    (l := (Text.trimStart Text.isBlank chunk.toList).reverse)
  rw [Text.trim, String.toList_ofList, Text.trimBoth, Text.trimEnd, ← List.reverse_append, hend,
    List.reverse_reverse, Text.trimStart, hstart]

theorem outcomes_command? (sub : Substitutor σ) {chunk : String}
    (hcomplete : isComplete chunk = true) (htrim : trimsBlanks chunk = true) (s : σ) :
    outcomes sub (command? chunk).toList s = outcome sub chunk s := by
  obtain ⟨⟨hlead, htrail⟩, hend⟩ : _ ∧ _ := by
    simpa only [trimsBlanks, Bool.and_eq_true, Bool.or_eq_true, List.all_eq_true, List.isEmpty_iff,
      Bool.not_eq_true'] using htrim
  rw [← outcome_trimmed (eq_trimmed chunk) hlead htrail hend hcomplete]
  unfold command?
  dsimp only
  split
  · rename_i hempty
    rw [String.isEmpty_iff.1 hempty]
    rfl
  · simp [outcomes]

/-! ## Chunks and the whole -/

/-- All the lines as one script, `pending` having been typed before. -/
def joined (pending : String) (lines : List String) : String :=
  "\n".intercalate (if pending.isEmpty then lines else pending :: lines)

theorem joined_cons (pending line : String) (lines : List String) :
    joined pending (line :: lines) = "\n".intercalate (withLine pending line :: lines) := by
  unfold joined withLine
  split
  · rfl
  · cases lines with
    | nil => rw [String.intercalate_cons_cons, String.intercalate_singleton,
        String.intercalate_singleton]
    | cons next lines =>
      rw [String.intercalate_cons_cons, String.intercalate_cons_cons, String.intercalate_cons_cons]
      simp only [String.append_assoc]

theorem joined_of_incomplete {pending : String} (h : isComplete pending = false)
    (lines : List String) : joined pending lines = "\n".intercalate (pending :: lines) := by
  have hne : pending.isEmpty = false := by
    rw [Bool.eq_false_iff, Ne, String.isEmpty_iff]
    rintro rfl
    cases h
  rw [joined, hne]
  rfl

theorem chunksFrom_ne_nil {pending : String} {lines : List String}
    (h : isComplete pending = false ∨ lines ≠ []) : chunksFrom pending lines ≠ [] := by
  induction lines generalizing pending with
  | nil =>
    have hpending := h.resolve_right (· rfl)
    rw [chunksFrom, if_neg]
    · exact List.cons_ne_nil _ _
    · rw [String.isEmpty_iff]
      rintro rfl
      cases hpending
  | cons line lines ih =>
    rw [chunksFrom]
    split
    · exact List.cons_ne_nil _ _
    · rename_i hincomplete
      exact ih (.inl (by simpa using hincomplete))

theorem outcomes_append (sub : Substitutor σ) (front rest : List String) (s : σ) :
    outcomes sub (front ++ rest) s =
      (outcomes sub rest (outcomes sub front s).2).map ((outcomes sub front s).1 ++ ·) id := by
  induction front generalizing s with
  | nil => simp [outcomes, Prod.map]
  | cons script front ih => simp [outcomes, ih, Prod.map]

theorem outcomes_chunksFrom (sub : Substitutor σ) {pending : String} (h : Pending pending)
    {lines : List String} (hcomplete : isComplete (joined pending lines) = true)
    (hcut : ∀ c ∈ (chunksFrom pending lines).dropLast, escaping c.toList = false)
    (htrim : ∀ c ∈ chunksFrom pending lines, trimsBlanks c = true) (s : σ) :
    outcomes sub (commands (chunksFrom pending lines)) s =
      outcome sub (joined pending lines) s := by
  induction lines generalizing pending s with
  | nil =>
    rw [commands_chunksFrom_nil h]
    rcases h with rfl | h
    · rfl
    · rw [joined_of_incomplete h, String.intercalate_singleton, h] at hcomplete
      cases hcomplete
  | cons line lines ih =>
    rw [joined_cons] at hcomplete ⊢
    rw [chunksFrom] at hcut htrim ⊢
    cases htext : isComplete (withLine pending line) with
    | false =>
      rw [htext] at hcut htrim
      rw [← joined_of_incomplete htext] at hcomplete ⊢
      exact ih (.inr htext) hcomplete hcut htrim s
    | true =>
      rw [htext, if_pos rfl] at hcut htrim
      rw [if_pos rfl, commands_cons_complete htext, outcomes_append,
        outcomes_command? sub htext (htrim _ List.mem_cons_self)]
      cases lines with
      | nil =>
        rw [String.intercalate_singleton]
        simp [chunksFrom, commands, outcomes, Prod.map]
      | cons next lines =>
        have hrest : chunksFrom "" (next :: lines) ≠ [] := chunksFrom_ne_nil (.inr (by simp))
        rw [List.dropLast_cons_of_ne_nil hrest, List.forall_mem_cons] at hcut
        have hjoined : "\n".intercalate (next :: lines) = joined "" (next :: lines) := rfl
        rw [String.intercalate_cons_cons, hjoined] at hcomplete ⊢
        obtain ⟨hnext, hsame⟩ := outcome_newline sub htext hcut.1 hcomplete s
        rw [hsame, ih (.inl rfl) hnext hcut.2 fun c hc => htrim c (List.mem_cons_of_mem _ hc)]

/-- Lines that make a complete script run as that script, if no chunk but the last ends in a
backslash that would escape the newline after it and if trimming takes off only blanks that are not
escaped: the commands that the loop runs, in turn, give what the whole gives. -/
theorem typed_lines_run_as_script (sub : Substitutor σ) (lines : List String)
    (hcomplete : isComplete ("\n".intercalate lines) = true)
    (hcut : ∀ c ∈ (chunks lines).dropLast, escaping c.toList = false)
    (htrim : ∀ c ∈ chunks lines, trimsBlanks c = true) (s : σ) :
    outcomes sub (commands (chunks lines)) s = outcome sub ("\n".intercalate lines) s ∧
      ∀ engine : Engine κ, takeInAll engine "" lines = runAll engine (commands (chunks lines)) :=
  ⟨outcomes_chunksFrom sub (.inl rfl) hcomplete hcut htrim s,
    fun engine => takeInAll_eq_runAll engine (.inl rfl) lines⟩

theorem typed_lines_run_as_script_quote :
    isComplete ("\n".intercalate ["  set x \"a", "b\" \t", "", "puts $x; # end\\"]) = true ∧
      (∀ c ∈ (chunks ["  set x \"a", "b\" \t", "", "puts $x; # end\\"]).dropLast,
        escaping c.toList = false) ∧
      (∀ c ∈ chunks ["  set x \"a", "b\" \t", "", "puts $x; # end\\"], trimsBlanks c = true) ∧
      commands (chunks ["  set x \"a", "b\" \t", "", "puts $x; # end\\"]) =
        ["set x \"a\nb\"", "puts $x; # end\\"] ∧
      outcomes (constant (.string "v"))
          (commands (chunks ["  set x \"a", "b\" \t", "", "puts $x; # end\\"])) () =
        outcome (constant (.string "v"))
          ("\n".intercalate ["  set x \"a", "b\" \t", "", "puts $x; # end\\"]) () :=
  have hcomplete : isComplete ("\n".intercalate
      ["  set x \"a", "b\" \t", "", "puts $x; # end\\"]) = true := by decide +kernel
  have hcut : ∀ c ∈ (chunks ["  set x \"a", "b\" \t", "", "puts $x; # end\\"]).dropLast,
      escaping c.toList = false := by decide +kernel
  have htrim : ∀ c ∈ chunks ["  set x \"a", "b\" \t", "", "puts $x; # end\\"],
      trimsBlanks c = true := by decide +kernel
  ⟨hcomplete, hcut, htrim, by decide +kernel,
    (typed_lines_run_as_script (κ := Unit) _ _ hcomplete hcut htrim ()).1⟩

/-- An escaped space at the end is trimmed, and so is a character that is no blank in a script; and
a line is run that a backslash joins to the next. -/
theorem typed_lines_differ_from_script :
    (isComplete "list a\\ " = true ∧
      outcomes (constant {}) (commands (chunks ["list a\\ "])) () ≠
        outcome (constant {}) "list a\\ " ()) ∧
    (isComplete "list a\u00a0" = true ∧
      outcomes (constant {}) (commands (chunks ["list a\u00a0"])) () ≠
        outcome (constant {}) "list a\u00a0" ()) ∧
    (isComplete "list a \\\nb" = true ∧
      outcomes (constant {}) (commands (chunks ["list a \\", "b"])) () ≠
        outcome (constant {}) "list a \\\nb" ()) := by
  refine ⟨⟨by decide +kernel, fun h => ?_⟩, ⟨by decide +kernel, fun h => ?_⟩, by decide +kernel,
    fun h => ?_⟩
  · have heq : ([.ok ([.string "list", .string "a\\"], "list a\\")], ()) =
        (([.ok ([.string "list", .string "a "], "list a\\ ")], ()) :
          List (Except Stop (List Value × String)) × Unit) := h
    simp at heq
  · have heq : ([.ok ([.string "list", .string "a"], "list a")], ()) =
        (([.ok ([.string "list", .string "a\u00a0"], "list a\u00a0")], ()) :
          List (Except Stop (List Value × String)) × Unit) := h
    simp at heq
  · have heq : ([.ok ([.string "list", .string "a", .string "\\"], "list a \\"),
          .ok ([.string "b"], "b")], ()) =
        (([.ok ([.string "list", .string "a", .string "b"], "list a \\\nb")], ()) :
          List (Except Stop (List Value × String)) × Unit) := h
    simp at heq

end Shell

end CommandScript
