import Deliberation.Term.Store

/-!
# Contexts

A context holds the variables of one run of a plan or rule, at most one for
each name.  Copying a context copies the bindings of its free, constant and
relocating variables; its mutex variables go on sharing their slots.

The second part replaces the variables of a literal by what a context knows
about them, in four ways that differ in what becomes of the unbound ones.
-/

namespace Deliberation

/-- Variables with different names, in the order in which they came in. -/
structure Context where
  vars : List Variable := []

namespace Context

def empty : Context := {}

def size (c : Context) : Nat := c.vars.length

/-- The variable with a name. -/
def get? (c : Context) (name : Path) : Option Variable :=
  c.vars.find? fun x => x.name = name

def contains (c : Context) (name : Path) : Bool := (c.get? name).isSome

/-- Put a variable in the place of the one with its name, or at the end. -/
def insertInto (x : Variable) : List Variable → List Variable
  | [] => [x]
  | y :: rest => if y.name = x.name then x :: rest else y :: insertInto x rest

/-- Add a variable or replace the one with its name. -/
def insert (c : Context) (x : Variable) : Context := ⟨insertInto x c.vars⟩

theorem find?_insertInto (x : Variable) (name : Path) (vars : List Variable) :
    (insertInto x vars).find? (fun y => y.name = name) =
      if x.name = name then some x else vars.find? (fun y => y.name = name) := by
  induction vars with
  | nil => by_cases hx : x.name = name <;> simp [insertInto, hx]
  | cons y rest ih =>
      unfold insertInto
      by_cases hy : y.name = x.name
      · by_cases hx : x.name = name <;> simp [hy, hx]
      · rw [if_neg hy]
        by_cases hname : y.name = name
        · have hx : x.name ≠ name := fun h => hy (hname.trans h.symm)
          simp [hname, hx]
        · simp [hname, ih]

/-- Inserting a variable changes what stands under its name and under no other. -/
@[simp] theorem get?_insert (c : Context) (x : Variable) (name : Path) :
    (c.insert x).get? name = if x.name = name then some x else c.get? name :=
  find?_insertInto x name c.vars

def ofList (vars : List Variable) : Context := vars.foldl insert empty

/-- The variables in the order of their names. -/
def sorted (c : Context) : List Variable :=
  c.vars.mergeSort fun x y => (compare x.name y.name).isLE

/-- The term that the variable with a name is bound to. -/
def value? (s : Store) (c : Context) (name : Path) : Option Term :=
  (c.get? name).bind fun x => x.value? s

/-- The term that the variable with a name is bound to, or an error. -/
def value (s : Store) (c : Context) (name : Path) : Except TermError Term :=
  match c.value? s name with
  | some t => .ok t
  | none => .error (.unboundVariable name.text)

/-- The names of the bound variables in order. -/
def boundNames (s : Store) (c : Context) : List Path :=
  (c.sorted.filter fun x => x.isBound s).map Variable.name

/-- A context with an unbound copy of each variable; of several with one name the first counts. -/
def ofVariables (vars : List Variable) : StateM Store Context :=
  vars.foldlM
    (fun c x => if c.contains x.name then pure c else c.insert <$> x.unboundCopy) empty

/-! ## Binding -/

/-- A context together with the store that its mutex variables live in. -/
structure Scope where
  store : Store
  context : Context

/-- Operations that write to a context.  What was written before an error stays. -/
abbrev Writing := ExceptT TermError (StateM Scope)

/-- A scope in which a name is bound to a term; an unknown name becomes a free variable. -/
def bindIn (scope : Scope) (name : Path) (t : Term) : Except TermError Scope :=
  match scope.context.get? name with
  | none => .ok { scope with context := scope.context.insert ⟨name, .free (some t)⟩ }
  | some x =>
      match x.set scope.store t with
      | .ok (store, x) => .ok ⟨store, scope.context.insert x⟩
      | .error e => .error e

/-- Bind a name to a term. -/
def bind (name : Path) (t : Term) : Writing Unit := do
  match bindIn (← get) name t with
  | .ok scope => set scope
  | .error e => throw e

/-- Bind several names in turn. -/
def bindAll : List (Path × Term) → Writing Unit
  | [] => pure ()
  | (name, t) :: rest => do
      bind name t
      bindAll rest

/--
Write the values of the bound relocating variables among `variables` to their
targets, and count them.
-/
def propagate : List Variable → Writing Nat
  | [] => pure 0
  | x :: rest =>
      match x.cell with
      | .relocate target (some t) => do
          bind target t
          let written ← propagate rest
          pure (written + 1)
      | _ => propagate rest

/-! ## Replacing variables by what a context knows -/

/--
Replace a bound variable by its value and an unbound one by the variable of the
context; a variable that the context does not know becomes empty.
-/
def instantiate (s : Store) (c : Context) (l : Literal) : Literal :=
  l.substitute fun x =>
    match c.get? x.name with
    | some known => (known.value? s).getD (.var known)
    | none => .raw .empty

/-- Replace the bound variables by their values; all others stay as they are. -/
def fill (s : Store) (c : Context) (l : Literal) : Literal :=
  l.substitute fun x => (c.value? s x.name).getD (.var x)

/-- Replace every variable, those without a value by the empty value. -/
def complete (s : Store) (c : Context) (l : Literal) : Literal :=
  l.substitute fun x => (c.value? s x.name).getD (.raw .empty)

/--
The value of a variable with all variables in it replaced in turn, through at
most `n` bound variables on any way.
-/
def groundVariable (s : Store) (c : Context) : Nat → Variable → Except TermError Term
  | 0, x => .error (.unboundVariable x.name.text)
  | n + 1, x =>
      match c.value? s x.name with
      | some t => t.substituteM (groundVariable s c n)
      | none => .error (.unboundVariable x.name.text)

/--
Replace variables by their values until none is left.  A variable without a
value is an error.  No variable is met twice on one way unless it leads to
itself, so one step more than there are variables is enough.
-/
def groundTerm (s : Store) (c : Context) (t : Term) : Except TermError Term :=
  t.substituteM (groundVariable s c (c.size + 1))

/-- Replace the variables of a literal by their values until none is left. -/
def ground (s : Store) (c : Context) (l : Literal) : Except TermError Literal :=
  l.substituteM (groundVariable s c (c.size + 1))

end Context

/-! ## Selecting arguments -/

/-- The arguments reached from a list of arguments by a list of segments. -/
def Literal.selectFrom : List String → List Term → List Term
  | [], arguments => arguments
  | head :: rest, arguments =>
      arguments.flatMap fun t =>
        match t with
        | .lit l =>
            if l.functor.text = head then
              if rest.isEmpty then [t] else Literal.selectFrom rest l.arguments
            else []
        | _ => []

/--
The arguments found by going down one segment of the path at a time, each time
into the literals with that functor; the empty path gives all arguments.
-/
def Literal.select (path : Path) (l : Literal) : List Term :=
  Literal.selectFrom path.segments l.arguments

end Deliberation
