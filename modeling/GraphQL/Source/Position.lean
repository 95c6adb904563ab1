/-!
# Places in a source text

A `Position` counts characters (code points) from the start of the text, together with the line
and the column that are shown to users; all three start at zero, and only a line feed begins a new
line. A `Span` is a half-open stretch between two positions, and `Located` ties an item to its span.

Every position of the library is reached from another one by `Position.after`, which walks over the
characters in between. The small lemmas here say that walking is additive and that the index counts
the characters walked over.
-/

namespace GraphQL

/-- A place in a source text. -/
structure Position where
  /-- Number of characters before this place. -/
  index : Nat
  /-- Number of line feeds before this place. -/
  line : Nat
  /-- Number of characters since the last line feed. -/
  column : Nat
deriving DecidableEq, Repr, Inhabited

namespace Position

/-- The start of every text. -/
def origin : Position := ⟨0, 0, 0⟩

/-- A position can only lie `line` line feeds and `column` characters behind its start. -/
def ofCounts? (index line column : Nat) : Option Position :=
  if line + column ≤ index then some ⟨index, line, column⟩ else none

/-- The place behind one character. -/
def next (p : Position) (c : Char) : Position :=
  if c = '\n' then ⟨p.index + 1, p.line + 1, 0⟩ else ⟨p.index + 1, p.line, p.column + 1⟩

/-- The place behind a run of characters. -/
def after (p : Position) (cs : List Char) : Position :=
  cs.foldl next p

/-- Positions are ordered by index; line and column only break ties between positions that do not
belong to one text. -/
def compare (p q : Position) : Ordering :=
  (Ord.compare p.index q.index).then
    ((Ord.compare p.line q.line).then (Ord.compare p.column q.column))

/-- The earlier of two positions. -/
def min (p q : Position) : Position :=
  if p.compare q = .gt then q else p

/-- The later of two positions. -/
def max (p q : Position) : Position :=
  if p.compare q = .gt then p else q

/-- Line and column, as shown to users. -/
def text (p : Position) : String :=
  toString p.line ++ ":" ++ toString p.column

@[simp] theorem after_nil (p : Position) : p.after [] = p := rfl

@[simp] theorem after_cons (p : Position) (c : Char) (cs : List Char) :
    p.after (c :: cs) = (p.next c).after cs := rfl

/-- Walking over two runs is walking over the first and then over the second. -/
theorem after_append (p : Position) (cs ds : List Char) :
    p.after (cs ++ ds) = (p.after cs).after ds := by
  simp [after, List.foldl_append]

@[simp] theorem index_next (p : Position) (c : Char) : (p.next c).index = p.index + 1 := by
  unfold next
  split <;> rfl

/-- The index counts the characters walked over. -/
@[simp] theorem index_after (p : Position) (cs : List Char) :
    (p.after cs).index = p.index + cs.length := by
  induction cs generalizing p with
  | nil => rfl
  | cons c cs ih =>
    rw [after_cons, ih, index_next, List.length_cons]
    omega

end Position

/-- A half-open stretch of a source text. -/
structure Span where
  /-- The first place covered. -/
  start : Position
  /-- The first place behind it. -/
  stop : Position
deriving DecidableEq, Repr, Inhabited

namespace Span

/-- The empty stretch at a place. -/
def empty (p : Position) : Span := ⟨p, p⟩

/-- The span of items that were not read from a text. -/
def unlocated : Span := empty .origin

/-- The smallest stretch that covers both. -/
def join (s t : Span) : Span :=
  ⟨s.start.min t.start, s.stop.max t.stop⟩

end Span

/-- An item together with the stretch of text it was read from. -/
structure Located (α : Type) where
  /-- Where the item stands. -/
  span : Span
  /-- The item itself. -/
  item : α
deriving DecidableEq, Repr, Inhabited

namespace Located

variable {α β : Type}

/-- An item that was not read from a text. -/
def unlocated (item : α) : Located α := ⟨.unlocated, item⟩

/-- Changes the item and keeps its place. -/
def map (f : α → β) (l : Located α) : Located β := ⟨l.span, f l.item⟩

/-- Changes the item if `f` accepts it, and keeps its place. -/
def filterMap (f : α → Option β) (l : Located α) : Option (Located β) :=
  (f l.item).map fun item => ⟨l.span, item⟩

/-- The stretch from the first item of a list to its last one; none for no items. -/
def cover : List (Located α) → Option Span
  | [] => none
  | first :: rest => some (first.span.join ((first :: rest).getLast (List.cons_ne_nil _ _)).span)

/-- What users are shown: the text of the item and where it starts. -/
def report (textOf : α → String) (l : Located α) : String :=
  textOf l.item ++ ". At " ++ l.span.start.text

end Located

/-- A name as it stands in a text. -/
abbrev Name := Located String

end GraphQL
