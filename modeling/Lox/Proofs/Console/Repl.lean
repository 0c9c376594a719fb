import Lox.Console.Repl
import Lox.Proofs.Console.Braces

/-
  When the loop submits the lines it has collected.

  Lines are collected while the brace tokens of each of them,
  taken as a source of its own, open more blocks than they
  close.  These are the brace tokens of the joined lines only
  if no line but the last leaves a text open: a brace in a
  text that was opened on an earlier line counts as well.

  Key definitions include:
    * `Repl.Starts`
    * `Repl.SubmitsBy`
    * `Repl.ofJoined`
    * `Repl.ClosesLines`

  Key theorems include:
    * `Repl.submitsBy_of_eq`
    * `Repl.submitsBy_ofLines`
    * `Repl.not_submitsBy_ofJoined`
-/

namespace Lox

namespace Repl

variable {console : Console} {session : Session}
variable {first line : String}
variable {buffer lines others : List String}
variable {balance : Int}

------------------------------------------------------------
-- Definitions
------------------------------------------------------------

/- A line that lines are collected from on. -/
structure Starts
    (line : String) : Prop where
  not_quit : Text.trim line ∉ quitCommands
  not_reset : Text.trim line ≠ resetCommand
  not_blank : (Text.trim line).isEmpty = false

/- The prompt where no lines are collected. -/
def ready : Output :=
  ⟨.out, "lox> "⟩

/- The prompt where lines are collected. -/
def waiting : Output :=
  ⟨.out, "...> "⟩

/-
  Whether the loop submits lines by a count of them.  Let the
  count of the first lines, as far as they go before the last
  one, be positive.  The loop waits for more at each of them.
  It also does at the last one if the count of all of them is
  positive, and runs them as one source if it is not.
-/
def SubmitsBy
    (count : List String → Int)
    (console : Console)
    (session : Session)
    (first : String)
    (others : List String) : Prop :=
  (∀ n < others.length,
      0 < count (first :: others.take n)) →
    (0 < count (first :: others) →
      runLines console ⟨session, [], 0⟩ (first :: others) =
        ready ::
          List.replicate (others.length + 1) waiting ++
          [console.line ""]) ∧
    (count (first :: others) ≤ 0 →
      ∀ more,
        runLines console ⟨session, [], 0⟩
            (first :: others ++ more) =
          ready :: List.replicate others.length waiting ++
            (submit console session
              (sourceOf (first :: others))).2 ++
            runLines console
              ⟨(submit console session
                (sourceOf (first :: others))).1, [], 0⟩
              more)

/- Lines of which all but the last close their texts. -/
def ClosesLines
    (lines : List String) : Prop :=
  ∀ line ∈ lines.dropLast, Braces.ClosesText line

/- The braces that are counted on lines. -/
def counted
    (lines : List String) : Int :=
  (lines.map Braces.balance).sum

/- The brace tokens of joined lines. -/
def ofJoined
    (lines : List String) : Int :=
  Braces.ofSource ("\n".intercalate lines)

/- The counted braces of a line, and of others after it. -/
theorem counted_cons
    (line : String)
    (lines : List String) :
    counted (line :: lines) =
      Braces.balance line + counted lines := by
  rw [counted, List.map_cons, List.sum_cons, counted]

/- The counted braces of lines, and of one after them. -/
theorem counted_append_singleton
    (lines : List String)
    (line : String) :
    counted (lines ++ [line]) =
      counted lines + Braces.balance line := by
  simp [counted]

------------------------------------------------------------
-- Reactions
------------------------------------------------------------

/- How the loop reacts to a line that it collects. -/
theorem react_eq
    (h : buffer ≠ [] ∨ balance = 0 ∧ Starts line) :
    react ⟨session, buffer, balance⟩ line =
      if 0 < balance + Braces.balance line then
        .collect (buffer ++ [line])
          (balance + Braces.balance line)
      else .run (sourceOf (buffer ++ [line])) := by
  unfold react
  rcases h with hBuffer | ⟨rfl, hStarts⟩
  · simp [hBuffer]
  · simp [hStarts.not_quit, hStarts.not_reset,
      hStarts.not_blank]

/- While the count is positive, the loop waits. -/
theorem feed_of_pos
    (h : buffer ≠ [] ∨ balance = 0 ∧ Starts line)
    (hCount : 0 < balance + Braces.balance line) :
    feed console ⟨session, buffer, balance⟩ line =
      (some ⟨session, buffer ++ [line],
        balance + Braces.balance line⟩, []) := by
  rw [feed, react_eq h, if_pos hCount]

/- Once the count is not positive, the loop submits. -/
theorem feed_of_nonpos
    (h : buffer ≠ [] ∨ balance = 0 ∧ Starts line)
    (hCount : balance + Braces.balance line ≤ 0) :
    feed console ⟨session, buffer, balance⟩ line =
      (some ⟨(submit console session
          (sourceOf (buffer ++ [line]))).1, [], 0⟩,
        (submit console session
          (sourceOf (buffer ++ [line]))).2) := by
  rw [feed, react_eq h, if_neg (Int.not_lt.mpr hCount)]

/- Where lines are collected, the prompt tells so. -/
theorem prompt_eq_waiting
    (h : buffer ≠ []) :
    prompt ⟨session, buffer, balance⟩ = waiting := by
  simp [prompt, waiting, h]

------------------------------------------------------------
-- Runs
------------------------------------------------------------

/- Further lines are collected while the count is positive. -/
theorem runLines_of_pos
    (hBuffer : buffer ≠ [])
    (hCount :
      ∀ n < lines.length,
        0 < balance + counted (lines.take (n + 1)))
    (more : List String) :
    runLines console ⟨session, buffer, balance⟩
        (lines ++ more) =
      List.replicate lines.length waiting ++
        runLines console
          ⟨session, buffer ++ lines,
            balance + counted lines⟩
          more := by
  induction lines generalizing buffer balance with
  | nil => simp [counted]
  | cons line lines ih =>
      have hFirst : 0 < balance + Braces.balance line := by
        have := hCount 0 (Nat.zero_lt_succ _)
        simpa [counted] using this
      have hMore :
          ∀ n < lines.length,
            0 < balance + Braces.balance line +
              counted (lines.take (n + 1)) := by
        intro n hn
        have := hCount (n + 1) (Nat.succ_lt_succ hn)
        rwa [List.take_succ_cons, counted_cons,
          ← Int.add_assoc] at this
      rw [List.cons_append, runLines,
        feed_of_pos (.inl hBuffer) hFirst,
        prompt_eq_waiting hBuffer]
      dsimp only
      rw [ih (by simp) hMore, List.append_assoc,
        List.length_cons, List.replicate_succ, counted_cons,
        ← Int.add_assoc]
      rfl

/- Lines are collected from the first on. -/
theorem runLines_collect
    (hStarts : Starts first)
    (hCount :
      ∀ n ≤ others.length,
        0 < counted (first :: others.take n))
    (more : List String) :
    runLines console ⟨session, [], 0⟩
        (first :: others ++ more) =
      ready :: List.replicate others.length waiting ++
        runLines console
          ⟨session, first :: others,
            counted (first :: others)⟩
          more := by
  have hFirst : 0 < 0 + Braces.balance first := by
    have := hCount 0 (Nat.zero_le _)
    simpa [counted] using this
  have hMore :
      ∀ n < others.length,
        0 < 0 + Braces.balance first +
          counted (others.take (n + 1)) := by
    intro n hn
    have := hCount (n + 1) hn
    rwa [counted_cons,
      ← Int.zero_add (Braces.balance first)] at this
  rw [List.cons_append, runLines,
    feed_of_pos (.inr ⟨rfl, hStarts⟩) hFirst]
  dsimp only
  rw [runLines_of_pos (by simp) hMore, Int.zero_add,
    counted_cons]
  rfl

/- A line after which the count is not positive is the last. -/
theorem runLines_submit
    (h : buffer ≠ [] ∨ balance = 0 ∧ Starts line)
    (hCount : balance + Braces.balance line ≤ 0)
    (more : List String) :
    runLines console ⟨session, buffer, balance⟩
        (line :: more) =
      prompt ⟨session, buffer, balance⟩ ::
        (submit console session
          (sourceOf (buffer ++ [line]))).2 ++
        runLines console
          ⟨(submit console session
            (sourceOf (buffer ++ [line]))).1, [], 0⟩
          more := by
  rw [runLines, feed_of_nonpos h hCount]

/-
  The loop submits by any count that is the one of counted
  braces on the lines, as far as they go.
-/
theorem submitsBy_of_eq
    {count : List String → Int}
    (hStarts : Starts first)
    (hCount :
      ∀ n,
        count (first :: others.take n) =
          counted (first :: others.take n)) :
    SubmitsBy count console session first others := by
  intro hBefore
  have hWhole :
      count (first :: others) = counted (first :: others) := by
    have := hCount others.length
    rwa [List.take_length] at this
  rw [hWhole]
  simp only [hCount] at hBefore
  refine ⟨?_, ?_⟩
  · intro hPos
    have hAll :
        ∀ n ≤ others.length,
          0 < counted (first :: others.take n) := by
      intro n hn
      rcases Nat.lt_or_eq_of_le hn with hLess | rfl
      · exact hBefore n hLess
      · rwa [List.take_length]
    have hRun :
        runLines console ⟨session, [], 0⟩
            (first :: others ++ []) = _ :=
      runLines_collect hStarts hAll []
    rw [List.append_nil] at hRun
    rw [hRun, runLines, prompt_eq_waiting (by simp),
      List.replicate_succ']
    simp
  · intro hNonpos more
    rcases List.eq_nil_or_concat others with
      rfl | ⟨init, last, rfl⟩
    · have hFirst : 0 + Braces.balance first ≤ 0 := by
        simpa [counted] using hNonpos
      exact runLines_submit (.inr ⟨rfl, hStarts⟩) hFirst more
    · rw [List.concat_eq_append] at hBefore hNonpos ⊢
      have hInit :
          ∀ n ≤ init.length,
            0 < counted (first :: init.take n) := by
        intro n hn
        have := hBefore n (by simp; omega)
        rwa [List.take_append_of_le_length hn] at this
      have hLast :
          counted (first :: init) + Braces.balance last ≤
            0 := by
        rwa [← counted_append_singleton, List.cons_append]
      have hSplit :
          first :: (init ++ [last]) ++ more =
            first :: init ++ last :: more := by
        simp
      rw [hSplit, runLines_collect hStarts hInit,
        runLines_submit (.inl (by simp)) hLast,
        prompt_eq_waiting (by simp), List.length_append,
        List.length_singleton, List.replicate_succ']
      simp

------------------------------------------------------------
-- Brace Tokens
------------------------------------------------------------

/- The counted braces of lines are their brace tokens. -/
theorem counted_eq_ofLines
    (h : ∀ line ∈ lines, '\n' ∉ line.toList) :
    counted lines = Braces.ofLines lines := by
  unfold counted Braces.ofLines
  congr 1
  apply List.map_congr_left
  intro line hLine
  exact Braces.balance_eq_ofSource (h line hLine)

/- First lines of such that close their texts do so, too. -/
theorem ClosesLines.take
    (h : ClosesLines lines)
    (n : Nat) :
    ClosesLines (lines.take n) := by
  intro line hLine
  rw [List.dropLast_eq_take, List.take_take] at hLine
  have hShort :
      min ((lines.take n).length - 1) n ≤
        lines.length - 1 := by
    rw [List.length_take]
    omega
  rw [← Nat.min_eq_left hShort, ← List.take_take,
    ← List.dropLast_eq_take] at hLine
  exact h line (List.mem_of_mem_take hLine)

/-
  The loop submits lines by the brace tokens of each of them,
  taken as a source of its own.  As long as every line but
  the last closes the texts that it opens, these are the
  brace tokens of the joined lines.
-/
theorem submitsBy_ofLines
    (console : Console)
    (session : Session)
    (hStarts : Starts first)
    (hLines :
      ∀ line ∈ first :: others, '\n' ∉ line.toList) :
    SubmitsBy Braces.ofLines console session first others ∧
      (ClosesLines (first :: others) →
        SubmitsBy ofJoined console session first others) := by
  have hCounted (n : Nat) :
      Braces.ofLines (first :: others.take n) =
        counted (first :: others.take n) := by
    refine (counted_eq_ofLines fun line hMem => ?_).symm
    rw [← List.take_succ_cons] at hMem
    exact hLines line (List.mem_of_mem_take hMem)
  refine ⟨submitsBy_of_eq hStarts hCounted, fun hCloses => ?_⟩
  refine submitsBy_of_eq hStarts fun n => ?_
  have hShort := hCloses.take (n + 1)
  rw [List.take_succ_cons] at hShort
  rw [ofJoined, Braces.ofSource_intercalate hShort]
  exact hCounted n

/- A block whose second line holds a quoted brace. -/
def quotedBrace : List String :=
  ["\x7b", "print \"\x7d\";", "\x7d"]

/- The quoted brace does not close the block. -/
theorem submitsBy_ofLines_quotedBrace :
    (Starts "\x7b" ∧ ClosesLines quotedBrace ∧
      ofJoined quotedBrace = 0) ∧
    runLines ⟨false⟩ ⟨.fresh, [], 0⟩ quotedBrace =
      [ready, waiting, waiting, ⟨.out, "\x7d\n"⟩, ready,
        ⟨.out, "\n"⟩] := by
  have hStarts : Starts "\x7b" :=
    ⟨by decide +kernel, by decide +kernel, by decide +kernel⟩
  have hLines :
      ∀ line ∈ quotedBrace, '\n' ∉ line.toList := by
    decide +kernel
  have hCloses : ClosesLines quotedBrace := by
    unfold ClosesLines Braces.ClosesText
    decide +kernel
  have hCount : ofJoined quotedBrace = 0 := by
    decide +kernel
  have hRun :=
    ((submitsBy_ofLines ⟨false⟩ .fresh hStarts hLines).2
      hCloses (by decide +kernel)).2
      (Int.le_of_eq hCount) []
  refine ⟨⟨hStarts, hCloses, hCount⟩, hRun.trans ?_⟩
  decide +kernel

/-
  A brace on a later line counts even if it is part of a text
  that was opened before: the loop submits, though the brace
  tokens of the joined lines are not balanced.
-/
theorem not_submitsBy_ofJoined :
    ¬ ∀ (console : Console) (session : Session)
        (first : String) (others : List String),
        Starts first →
          (∀ line ∈ first :: others, '\n' ∉ line.toList) →
            SubmitsBy ofJoined console session first
              others := by
  intro h
  have hRun :=
    h ⟨false⟩ .fresh "\x7b \"a" ["\x7d"]
      ⟨by decide +kernel, by decide +kernel,
        by decide +kernel⟩
      (by decide +kernel) (by decide +kernel)
  have hWaits := hRun.1 (by decide +kernel)
  revert hWaits
  decide +kernel

end Repl

end Lox
