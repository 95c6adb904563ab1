import GraphQL.Validity.Rule

/-!
# Rules on directives

Directives have to be known, allowed where they stand, and not repeated unless they may be. The
document's own definition of a directive goes before the schema's.
-/

namespace GraphQL

/-- The place that an operation is for directives. -/
def OperationKind.location : OperationKind → DirectiveLocation
  | .query => .query
  | .mutation => .mutation
  | .subscription => .subscription

/-- The place that a type definition is for directives. -/
def TypeBody.location : TypeBody → DirectiveLocation
  | .scalar => .scalar
  | .object _ _ => .object
  | .interface _ _ => .interface
  | .union _ => .union
  | .enum _ => .enum
  | .inputObject _ => .inputObject

/-- The directives that stand on a node, with the place that the node is for them. -/
def Node.directiveSite? : Node → Option (DirectiveLocation × List (Located DirectiveUse))
  | .operation node => some (node.item.kind.location, node.item.directives)
  | .fragment node => some (.fragmentDefinition, node.item.directives)
  | .variableDefinition definition => some (.variableDefinition, definition.directives)
  | .schema node => some (.schema, node.item.directives)
  | .type node => some (node.item.body.location, node.item.directives)
  | .fieldDefinition node => some (.fieldDefinition, node.item.directives)
  | .argumentDefinition node => some (.argumentDefinition, node.item.directives)
  | .inputFieldDefinition node => some (.inputFieldDefinition, node.item.directives)
  | .enumValueDefinition node => some (.enumValue, node.item.directives)
  | .field node _ => some (.field, node.item.directives)
  | .spread node => some (.fragmentSpread, node.item.directives)
  | .inline node _ => some (.inlineFragment, node.item.directives)
  | _ => none

namespace Rules

/-- Where a directive may stand. -/
def directiveLocations? (schema : Schema) (document : Document) (name : String) :
    Option (List DirectiveLocation) :=
  match document.directive? name with
  | some definition => some (definition.locations.map Located.item)
  | none => (schema.directive? name).map Directive.locations

/-- Directives are known and stand where they may. -/
def knownDirectives (schema : Schema) (document : Document) : Rule :=
  .onEnter fun _ node =>
    match node.directiveSite? with
    | none => []
    | some (location, directives) => directives.filterMap fun directive =>
      let name := directive.item.name.item
      match directiveLocations? schema document name with
      | none => some ⟨.unknownDirective name, [directive.span.start]⟩
      | some locations =>
        if locations.contains location then none
        else some ⟨.misplacedDirective name location, [directive.span.start]⟩

/-- Whether a directive may stand only once at a place. -/
def isUnique (schema : Schema) (document : Document) (name : String) : Bool :=
  match document.directive? name with
  | some definition => !definition.repeatable
  | none => (schema.directive? name).any (!·.repeatable)

/-- The directives that may not be repeated, with their places. -/
def uniqueDirectives (schema : Schema) (document : Document)
    (directives : List (Located DirectiveUse)) : List (String × Position) :=
  (directives.filter fun directive => isUnique schema document directive.item.name.item).map
    fun directive => (directive.item.name.item, directive.span.start)

/-- Directives are not repeated unless they may be. All definitions and extensions of the schema are
one place, and so are all definitions and extensions of a type. -/
def uniqueDirectivesPerLocation (schema : Schema) (document : Document) : Rule :=
  .onEnter fun _ node =>
    match node with
    | .document document =>
      check (document.schemas.flatMap (·.item.directives)) ++
        ((document.types.map (·.item.name.item)).eraseDups.flatMap fun name =>
          check ((document.types.filter (·.item.name.item = name)).flatMap (·.item.directives)))
    | .schema _ => []
    | .type _ => []
    | node =>
      match node.directiveSite? with
      | some (_, directives) => check directives
      | none => []
where
  check (directives : List (Located DirectiveUse)) : List Fault :=
    repetitions (uniqueDirectives schema document directives) .duplicateDirective

end Rules

end GraphQL
