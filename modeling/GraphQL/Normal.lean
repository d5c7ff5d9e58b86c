/-
GraphQL.Normal — the normalized tree of an operation.

Execution collects fields for one object type at a time; the normalized tree
does so for all possible types at once, before anything runs. A node stands for
the selections of one field under one response key, with the object types it can
be resolved on. Selections of a response key become one node only if they select
the same field, of the same declared type, with literally equal arguments.

The target of the walk (`Selection`) is the list of object types that are still
possible. The declared type of a field is looked up on the first of them.

The tree of an operation without cyclic fragments is finite. `Normal.levelsFor`
bounds the levels of any finite tree: along a branch no field selection occurs
twice with the same parent type.
-/
import GraphQL.Operation
import GraphQL.Selection

namespace GraphQL

/-! ## Nodes -/

/-- A node of the normalized tree, its children apart. -/
structure NormalField where
  alias? : Option String
  name : String
  /-- The object types the field can be resolved on, in the order they were found. -/
  objectTypes : List String
  /-- The coerced arguments. -/
  arguments : List (String × Json)
  /-- The arguments as written. -/
  written : List (String × Literal)
  type : TypeExpr
  /-- The depth in the tree; fields of the operation itself are on level 1. -/
  level : Nat
  /-- The selections that became this node. -/
  fields : List Field
deriving Inhabited

/-- A node of the normalized tree with its children. -/
inductive NormalNode where
  | node (field : NormalField) (children : List NormalNode)
deriving Inhabited

namespace NormalField

/-- The response key. -/
def key (f : NormalField) : String := f.alias?.getD f.name

/-- Whether the field applies to some of the possible types of its parent only. -/
def isPartial (f : NormalField) (s : Schema) (parent : String) : Bool :=
  (s.possibleTypes parent).length != f.objectTypes.length

end NormalField

namespace NormalNode

/-- The node itself. -/
def field : NormalNode → NormalField
  | .node f _ => f

/-- The nodes below, one level down. -/
def children : NormalNode → List NormalNode
  | .node _ cs => cs

mutual

/-- How many nodes a tree has. -/
def size : NormalNode → Nat
  | .node _ cs => sizes cs + 1

/-- How many nodes some trees have. -/
def sizes : List NormalNode → Nat
  | [] => 0
  | t :: ts => size t + sizes ts

end

mutual

/-- The nodes of a tree, each before its children. -/
def preorder : NormalNode → List NormalNode
  | .node f cs => .node f cs :: preorders cs

/-- The nodes of some trees, one tree after the other. -/
def preorders : List NormalNode → List NormalNode
  | [] => []
  | t :: ts => preorder t ++ preorders ts

end

/-- The nodes that satisfy a test, found with a stack of trees to visit: the tree
on top is taken, its children take its place. `n` bounds the steps. -/
def search (p : NormalField → Bool) : Nat → List NormalNode → List NormalNode
  | 0, _ => []
  | _ + 1, [] => []
  | n + 1, t :: stack =>
    let rest := search p n (t.children ++ stack)
    if p t.field then t :: rest else rest

end NormalNode

/-! ## Which selections become one node -/

/-- The same argument names with literally equal values, in any order. -/
def argumentsMatch (left right : List (String × Literal)) : Bool :=
  left.length == right.length &&
    left.all fun a => right.any fun b => b.1 == a.1 && b.2.same a.2

namespace Normal

/-- The nodes of one level by response key. -/
abbrev Buckets := List (String × List NormalField)

/-- The object types that a type condition leaves over. -/
def restrict (sc : Scope) (condition : String) (objects : List String) : Option (List String) :=
  let possible := sc.schema.possibleTypes condition
  some (objects.filter fun o => possible.any fun p => p.name == o)

/-- The declared type and arguments of a field on an object type. -/
def declaration? (s : Schema) (object name : String) :
    Option (TypeExpr × Option (Registry InputValue)) :=
  if name = "__typename" then some (.required "String", none)
  else (s.field? object name).map fun d => (d.type, some d.arguments)

/-- Add object types that are not there yet. -/
def addTypes (types new : List String) : List String :=
  new.foldl (fun acc t => if acc.contains t then acc else acc ++ [t]) types

/-- Whether a selection of a field with this declared type becomes part of a node. -/
def matchesNode (f : FieldNode) (type : TypeExpr) (n : NormalField) : Bool :=
  n.name == f.name && n.type == type && argumentsMatch n.written f.arguments

/-- Let the first node that matches take the selection; none if no node does. -/
def joinFirst? (f : Field) (type : TypeExpr) (objects : List String) :
    List NormalField → Option (List NormalField)
  | [] => none
  | n :: ns =>
    if matchesNode f.node type n then
      some ({ n with
        objectTypes := addTypes n.objectTypes objects
        fields := n.fields ++ [f] } :: ns)
    else (joinFirst? f type objects ns).map (n :: ·)

/-- The arguments of a new node. -/
def nodeArguments (sc : Scope) (declared? : Option (Registry InputValue)) (f : Field) :
    Except Failure (List (String × Json)) :=
  match declared? with
  | none => .ok []
  | some ds =>
    match coerceArgumentValues sc.schema sc.vars ds.items f.node.arguments with
    | .ok args => .ok args
    | .error e => .error (.coercion [e])

/-- Put an occurrence into a node of its response key. A field that the first
object type does not declare is left out. -/
def putOccurrence (sc : Scope) (level : Nat) (buckets : Buckets) (o : Occurrence (List String)) :
    Except Failure Buckets :=
  match o.target with
  | [] => .ok buckets
  | first :: _ =>
    match declaration? sc.schema first o.field.node.name with
    | none => .ok buckets
    | some (type, declared?) =>
      let key := o.field.node.responseKey
      let nodes := (buckets.lookup key).getD []
      match joinFirst? o.field type o.target nodes with
      | some nodes => .ok (Entries.insert key nodes buckets)
      | none =>
        match nodeArguments sc declared? o.field with
        | .error e => .error e
        | .ok arguments =>
          let node : NormalField :=
            { alias? := o.field.node.alias?
              name := o.field.node.name
              objectTypes := o.target
              arguments
              written := o.field.node.arguments
              type
              level
              fields := [o.field] }
          .ok (Entries.insert key (nodes ++ [node]) buckets)

/-- The nodes of one level, by response key in the order the keys were met. -/
def levelNodes (sc : Scope) (level : Nat) (sets : List SelectionSet) (objects : List String) :
    Except Failure (List NormalField) :=
  let os := sets.flatMap fun set => sc.occurrences (restrict sc) set objects
  match os.foldlM (putOccurrence sc level) [] with
  | .ok buckets => .ok (buckets.flatMap Prod.snd)
  | .error e => .error e

/-- The object types of the children of a node, if its type is composite. -/
def childObjects? (s : Schema) (n : NormalField) : Option (List String) :=
  match s.type? n.type.baseName with
  | some t =>
    if t.isComposite then some ((s.possibleTypes t.name).map ObjectType.name) else none
  | none => none

/-- The nodes of selection sets on object types, children included. `n` bounds
the levels. -/
def trees (sc : Scope) : Nat → List SelectionSet → List String → Nat →
    Except Failure (List NormalNode)
  | 0, _, _, _ => .error (.fault .tooDeep)
  | n + 1, sets, objects, level =>
    match levelNodes sc level sets objects with
    | .error e => .error e
    | .ok fields =>
      fields.mapM fun f =>
        match childObjects? sc.schema f with
        | none => .ok (.node f [])
        | some objects =>
          match trees sc n (f.fields.map Field.selections) objects (level + 1) with
          | .ok cs => .ok (.node f cs)
          | .error e => .error e

/-- More levels than any finite tree has: the level of the operation, one for
each pair of a field selection and its parent's type, and the last empty one. -/
def levelsFor (s : Schema) (d : Document) : Nat :=
  d.fields.length * s.types.items.length + 2

end Normal

/-! ## Trees -/

/-- The normalized tree of an operation. -/
structure NormalTree where
  top : List NormalNode

namespace NormalTree

/-- Normalize an operation of a document with its coerced variables. -/
def ofDocument (s : Schema) (d : Document) (operation? : Option String)
    (vars : VariableValues) : Except Failure NormalTree :=
  match d.operation operation? with
  | .error e => .error (.ofRequestError e)
  | .ok o =>
    match o.rootTypeName s with
    | .error e => .error (.ofRequestError e)
    | .ok root =>
      let sc := Scope.ofDocument s d vars
      match Normal.trees sc (Normal.levelsFor s d) [o.selections] [root] 1 with
      | .ok top => .ok ⟨top⟩
      | .error e => .error e

/-- The nodes that satisfy a test, in depth-first order. -/
def search (t : NormalTree) (p : NormalField → Bool) : List NormalNode :=
  NormalNode.search p (NormalNode.sizes t.top) t.top

/-- The nodes that resolve a field on an object type. -/
def nodesAt (t : NormalTree) (object field : String) : List NormalNode :=
  t.search fun n => n.name == field && n.objectTypes.contains object

/-- The nodes that a field selection became part of. -/
def nodesOf (t : NormalTree) (f : Field) : List NormalNode :=
  t.search fun n => n.fields.any fun g => g.node.number == f.node.number

end NormalTree

end GraphQL
