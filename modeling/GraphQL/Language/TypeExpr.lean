/-!
# Type expressions

A type expression wraps something named into lists, and each layer may be required, that is, exclude
null. The expressions of the language wrap names (`TypeLiteral`); an expression whose name has been
looked up wraps the type found. Since each layer says itself whether it is required, no expression
is required twice.
-/

namespace GraphQL

/-- Something named inside any number of lists. -/
inductive TypeExpr (α : Type) where
  /-- The named thing itself. -/
  | named (core : α) (required : Bool)
  /-- A list of items. -/
  | list (item : TypeExpr α) (required : Bool)
deriving DecidableEq, Repr, Inhabited

namespace TypeExpr

variable {α β : Type}

/-- Whether null is excluded. -/
def isRequired : TypeExpr α → Bool
  | named _ r => r
  | list _ r => r

/-- The same type without null. -/
def required : TypeExpr α → TypeExpr α
  | named a _ => named a true
  | list t _ => list t true

/-- The same type with null. -/
def nullable : TypeExpr α → TypeExpr α
  | named a _ => named a false
  | list t _ => list t false

/-- What stands inside all lists. -/
def innermost : TypeExpr α → α
  | named a _ => a
  | list t _ => t.innermost

/-- What is named, if it stands in no list. -/
def core? : TypeExpr α → Option α
  | named a _ => some a
  | list _ _ => none

/-- The type of the items of a list. -/
def item? : TypeExpr α → Option (TypeExpr α)
  | named _ _ => none
  | list t _ => some t

/-- Number of layers: each list is one, and each exclusion of null. -/
def depth : TypeExpr α → Nat
  | named _ r => r.toNat
  | list t r => t.depth + 1 + r.toNat

/-- Changes what is named. -/
def map (f : α → β) : TypeExpr α → TypeExpr β
  | named a r => named (f a) r
  | list t r => list (t.map f) r

/-- Looks up what is named. -/
def resolve (f : α → Option β) : TypeExpr α → Option (TypeExpr β)
  | named a r => (f a).map (named · r)
  | list t r => (t.resolve f).map (list · r)

/-- The text of an expression, given the text of what is named. -/
def textWith (core : α → String) : TypeExpr α → String
  | named a r => core a ++ (if r then "!" else "")
  | list t r => "[" ++ t.textWith core ++ "]" ++ (if r then "!" else "")

end TypeExpr

/-- A type expression of the language. -/
abbrev TypeLiteral := TypeExpr String

/-- How a type expression is written. -/
def TypeLiteral.text (t : TypeLiteral) : String :=
  t.textWith id

end GraphQL
