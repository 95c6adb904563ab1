import GraphQL.Validity.Event
import GraphQL.Validity.Violation

/-!
# Rules

A rule watches a walk through a document and says what is wrong. It keeps a state of its own, so
rules that need to know the whole document can speak at the end. Rules that watch the same walk do
not disturb each other: `Rule.both` lets two watch together.
-/

namespace GraphQL

/-- Something that watches a walk and finds faults. -/
structure Rule where
  /-- What the rule remembers. -/
  State : Type
  start : State
  /-- What the rule remembers and says after a visit. -/
  observe : State → Event → State × List Fault
  /-- What the rule says after the walk. -/
  finish : State → List Fault

namespace Rule

/-- What a rule says from some state on. -/
def runFrom (rule : Rule) (state : rule.State) : List Event → List Fault
  | [] => rule.finish state
  | event :: events =>
    let (state, faults) := rule.observe state event
    faults ++ rule.runFrom state events

/-- Everything that a rule says about a walk. -/
def run (rule : Rule) (events : List Event) : List Fault :=
  rule.runFrom rule.start events

/-- The rule that finds nothing. -/
def silent : Rule where
  State := Unit
  start := ()
  observe _ _ := ((), [])
  finish _ := []

/-- Two rules that watch the same walk. -/
def both (r s : Rule) : Rule where
  State := r.State × s.State
  start := (r.start, s.start)
  observe := fun (a, b) event =>
    let (a, found) := r.observe a event
    let (b, more) := s.observe b event
    ((a, b), found ++ more)
  finish := fun (a, b) => r.finish a ++ s.finish b

/-- Many rules that watch the same walk. -/
def all (rules : List Rule) : Rule :=
  rules.foldr both silent

/-- A rule that looks at nodes one by one when they are entered. -/
def onEnter (check : Surroundings → Node → List Fault) : Rule where
  State := Unit
  start := ()
  observe _ event :=
    ((), match event.phase with
      | .enter => check event.place event.node
      | .leave => [])
  finish _ := []

/-- A rule that looks at the whole document at once. -/
def onDocument (check : Document → List Fault) : Rule :=
  onEnter fun _ node =>
    match node with
    | .document document => check document
    | _ => []

/-- A rule that remembers what it needs and speaks at the end. -/
def afterwards {State : Type} (start : State) (remember : State → Event → State)
    (check : State → List Fault) : Rule where
  State := State
  start := start
  observe state event := (remember state event, [])
  finish := check

end Rule

/-- The names that occur several times, in the order in which they occur first, each with all its
places. -/
def repeated (names : List (String × Position)) : List (String × List Position) :=
  (names.map Prod.fst).eraseDups.filterMap fun name =>
    match names.filter (·.1 = name) with
    | first :: second :: rest => some (name, (first :: second :: rest).map Prod.snd)
    | _ => none

/-- One fault for each name that occurs several times. -/
def repetitions (names : List (String × Position)) (violation : String → Violation) :
    List Fault :=
  (repeated names).map fun (name, locations) => ⟨violation name, locations⟩

/-- A name with the place where it starts. -/
def Located.start (name : Name) : String × Position :=
  (name.item, name.span.start)

end GraphQL
