import Mathlib.Data.List.Basic
import GraphQL.Proofs.Silence

/-!
# What a rule says along a walk

A rule on single nodes says what it has to say node by node, so what it says along a walk splits as
the walk does: into what it says at a node and what it says inside. Most rules have nothing to say
inside literals; for these, what stands in arguments can be skipped, and a directive counts only as
a whole.
-/

namespace GraphQL

namespace Rule

variable (check : Surroundings → Node → List Fault)

@[simp] theorem run_onEnter_nil : (onEnter check).run [] = [] := rfl

/-- What is said along two walks, one after the other. -/
@[simp] theorem run_onEnter_append (events more : List Event) :
    (onEnter check).run (events ++ more) =
      (onEnter check).run events ++ (onEnter check).run more := by
  simp only [run_onEnter, List.flatMap_append]

/-- What is said around a node: what there is to say at the node, and then inside. -/
@[simp] theorem run_onEnter_around (place : Surroundings) (node : Node) (inner : List Event) :
    (onEnter check).run (Event.around place node inner) =
      check place node ++ (onEnter check).run inner := by
  simp [run_onEnter, Event.around]

/-- What is said along many walks. -/
@[simp] theorem run_onEnter_flatMap {α : Type} (list : List α) (events : α → List Event) :
    (onEnter check).run (list.flatMap events) =
      list.flatMap fun a => (onEnter check).run (events a) := by
  simp only [run_onEnter, List.flatMap_assoc]

end Rule

/-- Whether a node is part of what is given for a parameter. -/
def Node.isLiteral : Node → Bool
  | .argument _ => true
  | .value _ => true
  | .entry _ _ => true
  | _ => false

namespace Rule

/-- A check has nothing to say at literals. -/
def SkipsLiterals (check : Surroundings → Node → List Fault) : Prop :=
  ∀ place node, node.isLiteral → check place node = []

variable {check : Surroundings → Node → List Fault} (schema : Schema)

/-- Literals are arguments, values and entries of objects. -/
theorem SkipsLiterals.of_each (hargument : ∀ place argument, check place (.argument argument) = [])
    (hvalue : ∀ place value, check place (.value value) = [])
    (hentry : ∀ place key value, check place (.entry key value) = []) : SkipsLiterals check := by
  intro place node hliteral
  cases node with
  | argument argument => exact hargument place argument
  | value value => exact hvalue place value
  | entry key value => exact hentry place key value
  | _ => cases hliteral

/-- Around a literal, only the inside can be talked about. -/
theorem run_around_literal (hskips : SkipsLiterals check) {place : Surroundings} {node : Node}
    {inner : List Event} (hnode : node.isLiteral) (hinner : (onEnter check).run inner = []) :
    (onEnter check).run (Event.around place node inner) = [] := by
  rw [run_onEnter_around, hskips place node hnode, hinner]
  rfl

mutual

/-- Nothing is said inside a value. -/
theorem run_valueEvents (hskips : SkipsLiterals check) (place : Surroundings) (span : Span) :
    (v : Value) → (onEnter check).run (v.events schema place span) = []
  | .list items => run_around_literal hskips rfl (run_itemEvents hskips _ items)
  | .object entries => run_around_literal hskips rfl (run_entryEvents hskips place entries)
  | .null => run_around_literal hskips rfl rfl
  | .int _ => run_around_literal hskips rfl rfl
  | .float _ => run_around_literal hskips rfl rfl
  | .string _ => run_around_literal hskips rfl rfl
  | .boolean _ => run_around_literal hskips rfl rfl
  | .enum _ => run_around_literal hskips rfl rfl
  | .variable _ => run_around_literal hskips rfl rfl

theorem run_itemEvents (hskips : SkipsLiterals check) (place : Surroundings) :
    (items : List (Located Value)) →
      (onEnter check).run (Value.itemEvents schema place items) = []
  | [] => rfl
  | ⟨span, v⟩ :: rest => by
      rw [Value.itemEvents, run_onEnter_append, run_valueEvents hskips place span v,
        run_itemEvents hskips place rest]
      rfl

theorem run_entryEvents (hskips : SkipsLiterals check) (place : Surroundings) :
    (entries : List (Name × Located Value)) →
      (onEnter check).run (Value.entryEvents schema place entries) = []
  | [] => rfl
  | (_, ⟨span, v⟩) :: rest => by
      rw [Value.entryEvents, run_onEnter_append,
        run_around_literal hskips rfl (run_valueEvents hskips _ span v),
        run_entryEvents hskips place rest]
      rfl

end

/-- Nothing is said inside arguments. -/
theorem run_argumentEvents (hskips : SkipsLiterals check) (place : Surroundings)
    (parameters : Option (List InputValue)) (arguments : Option (Located (List Argument))) :
    (onEnter check).run (argumentEvents schema place parameters arguments) = [] := by
  rw [argumentEvents, run_onEnter_flatMap, List.flatMap_eq_nil_iff]
  intro argument _
  exact run_around_literal hskips rfl (run_valueEvents schema hskips _ _ _)

/-- Of directives, only the directives themselves are talked about. -/
theorem run_directiveEvents (hskips : SkipsLiterals check) (place : Surroundings)
    (directives : List (Located DirectiveUse)) :
    (onEnter check).run (directiveEvents schema place directives) =
      directives.flatMap fun directive => check place (.directive directive) := by
  rw [directiveEvents, run_onEnter_flatMap]
  refine List.flatMap_congr fun directive _ => ?_
  rw [run_onEnter_around, run_argumentEvents schema hskips, List.append_nil]

/-- Of variables, their definitions and the directives on them are talked about. -/
theorem run_variableEvents (hskips : SkipsLiterals check) (place : Surroundings)
    (definitions : List VariableDefinition) :
    (onEnter check).run (variableEvents schema place definitions) =
      definitions.flatMap fun definition =>
        check { place with input := some definition.type.item } (.variableDefinition definition) ++
          definition.directives.flatMap fun directive =>
            check { place with input := some definition.type.item } (.directive directive) := by
  rw [variableEvents, run_onEnter_flatMap]
  refine List.flatMap_congr fun definition _ => ?_
  rw [run_onEnter_around, run_onEnter_append, run_directiveEvents schema hskips]
  cases definition.default with
  | none => rfl
  | some value => simp only [run_valueEvents schema hskips, List.nil_append]

/-- Of arguments or input fields, as they are defined, the definitions and the directives on them
are talked about. -/
theorem run_inputDefinitionEvents (hskips : SkipsLiterals check) (place : Surroundings)
    (node : Located InputValueDefinition → Node)
    (definitions : List (Located InputValueDefinition)) :
    (onEnter check).run (inputDefinitionEvents schema place node definitions) =
      definitions.flatMap fun definition =>
        check place (node definition) ++
          definition.item.directives.flatMap fun directive =>
            check place (.directive directive) := by
  rw [inputDefinitionEvents, run_onEnter_flatMap]
  refine List.flatMap_congr fun definition _ => ?_
  rw [run_onEnter_around, run_directiveEvents schema hskips]

end Rule

end GraphQL
