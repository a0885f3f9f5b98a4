namespace TreeLint.Diff

/-!
# Unified diffs

* `lines` splits a text after its line ends.
* `script` aligns two lists of lines along a longest common subsequence.
* `blocks` gathers the script into runs of common and of changed lines, in which the removed lines
  come before the added ones.
* `hunks` keeps the changed runs with up to three common lines around them; runs that at most six
  common lines separate share a hunk.
* `unified` writes the hunks.
-/

/-! ### Lines -/

/-- The lines of a text with their ends; `line` is the one being read. A line ends after a line
    feed, a carriage return, or both in this order. -/
def linesFrom (line : List Char) : List Char → List (List Char)
  | [] => if line.isEmpty then [] else [line]
  | '\r' :: '\n' :: cs => (line ++ ['\r', '\n']) :: linesFrom [] cs
  | c :: cs =>
    if c = '\n' || c = '\r' then (line ++ [c]) :: linesFrom [] cs
    else linesFrom (line ++ [c]) cs

/-- The lines of a text with their ends. -/
def lines (s : String) : List String := (linesFrom [] s.toList).map String.ofList

/-- The line has an end. -/
def isTerminated (line : String) : Bool :=
  line.toList.getLast?.any fun c => c = '\n' || c = '\r'

/-! ### Alignment -/

/-- One line of an alignment. -/
inductive Change where
  | common (line : String)
  | removed (line : String)
  | added (line : String)

/-- The lengths of the longest common subsequences of `a :: old` with each end part of the new
    lines, longest end part first, given those of `old`. -/
def lengthRow (a : String) : (new : List String) → (below : List Nat) → List Nat
  | [], _ => [0]
  | b :: new, below =>
    let rest := lengthRow a new below.tail
    (if a = b then below.tail.headD 0 + 1 else max (below.headD 0) (rest.headD 0)) :: rest

/-- The rows of lengths for each end part of the old lines, longest first. -/
def lengthRows (old new : List String) : List (List Nat) :=
  old.foldr (fun a rows => lengthRow a new (rows.headD []) :: rows)
    [List.replicate (new.length + 1) 0]

/-- Align the lines that are left; `row` and `rows` hold the lengths for them, from the present
    old line on, of which the first `skip` of each row are done with. -/
def scriptFrom (rows : List (List Nat)) (skip : Nat) (old new : List String) : List Change :=
  match old, new with
  | [], new => new.map .added
  | old, [] => old.map .removed
  | a :: old, b :: new =>
    if a = b then .common a :: scriptFrom rows.tail (skip + 1) old new
    else
      let down := (rows.tail.headD []).getD skip 0
      let right := (rows.headD []).getD (skip + 1) 0
      if right ≤ down then .removed a :: scriptFrom rows.tail skip old (b :: new)
      else .added b :: scriptFrom rows (skip + 1) (a :: old) new
termination_by old.length + new.length

/-- Align two lists of lines along a longest common subsequence. -/
def script (old new : List String) : List Change := scriptFrom (lengthRows old new) 0 old new

/-! ### Blocks and hunks -/

/-- A run of lines. -/
inductive Block where
  | common (lines : List String)
  | changed (removed added : List String)

/-- Put a line in front of the blocks. -/
def prependChange : Change → List Block → List Block
  | .common l, .common ls :: bs => .common (l :: ls) :: bs
  | .common l, bs => .common [l] :: bs
  | .removed l, .changed rs as :: bs => .changed (l :: rs) as :: bs
  | .removed l, bs => .changed [l] [] :: bs
  | .added l, .changed rs as :: bs => .changed rs (l :: as) :: bs
  | .added l, bs => .changed [] [l] :: bs

/-- The runs of a script. -/
def blocks (changes : List Change) : List Block := changes.foldr prependChange []

/-- The number of common lines around a change. -/
def radius : Nat := 3

/-- Changed lines and the common lines around them. -/
structure Hunk where
  /-- The number of old lines before the hunk. -/
  oldStart : Nat
  /-- The number of new lines before the hunk. -/
  newStart : Nat
  changes : List Change

namespace Hunk

def extend (h : Hunk) (cs : List Change) : Hunk := { h with changes := h.changes ++ cs }

/-- The number of old lines in the hunk. -/
def oldSize (h : Hunk) : Nat :=
  h.changes.countP fun
    | .added _ => false
    | _ => true

/-- The number of new lines in the hunk. -/
def newSize (h : Hunk) : Nat :=
  h.changes.countP fun
    | .removed _ => false
    | _ => true

/-- Something has changed. -/
def isChanged (h : Hunk) : Bool :=
  h.changes.any fun
    | .common _ => false
    | _ => true

end Hunk

/-- The hunk that begins with the last lines of a common run, after `i` old and `j` new lines. -/
def openHunk (i j : Nat) (ls : List String) : Hunk :=
  let context := ls.drop (ls.length - radius)
  ⟨i - context.length, j - context.length, context.map .common⟩

/-- The hunks of the blocks that are left, the first of which is `h` as far as it is known; `i` old
    and `j` new lines are done with. -/
def hunksFrom (i j : Nat) (h : Hunk) : List Block → List Hunk
  | [] => if h.isChanged then [h] else []
  | [.common ls] =>
    let h := h.extend ((ls.take radius).map .common)
    if h.isChanged then [h] else []
  | .common ls :: bs =>
    let i := i + ls.length
    let j := j + ls.length
    if ls.length > 2 * radius then
      h.extend ((ls.take radius).map .common) :: hunksFrom i j (openHunk i j ls) bs
    else hunksFrom i j (h.extend (ls.map .common)) bs
  | .changed rs as :: bs =>
    hunksFrom (i + rs.length) (j + as.length)
      (h.extend (rs.map .removed ++ as.map .added)) bs

/-- The hunks of a list of blocks. -/
def hunks : List Block → List Hunk
  | .common ls :: bs => hunksFrom ls.length ls.length (openHunk ls.length ls.length ls) bs
  | bs => hunksFrom 0 0 ⟨0, 0, []⟩ bs

/-! ### Writing -/

/-- A range of lines: the number of its first line and its length. A length of 1 is left out, and
    an empty range is written with the number of the line before it. -/
def range (start size : Nat) : String :=
  if size = 1 then toString (start + 1)
  else if size = 0 then toString start ++ ",0"
  else toString (start + 1) ++ "," ++ toString size

/-- A line with its mark. A last line without an end is marked as such. -/
def markedLine (mark line : String) : String :=
  mark ++ line ++ if isTerminated line then "" else "\n\\ No newline at end of file\n"

/-- The line of a change. -/
def changeLine : Change → String
  | .common l => markedLine " " l
  | .removed l => markedLine "-" l
  | .added l => markedLine "+" l

/-- A hunk with its header. -/
def hunkText (h : Hunk) : String :=
  "@@ -" ++ range h.oldStart h.oldSize ++ " +" ++ range h.newStart h.newSize ++ " @@\n" ++
    String.join (h.changes.map changeLine)

/-- The unified diff from one text to another; it is empty when they are equal. -/
def unified (before after : String) : String :=
  if before = after then ""
  else
    match hunks (blocks (script (lines before) (lines after))) with
    | [] => ""
    | hs => "--- original\n+++ formatted\n" ++ String.join (hs.map hunkText)

end TreeLint.Diff
