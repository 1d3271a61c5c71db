import Deliberation.Path
import Deliberation.Value.Heap

/-!
# Terms, variables and literals

A literal is a functor with arguments and annotations.  An argument is a term:
a raw value, a variable or another literal.  A variable is a name with a cell.
The cell of a free or relocating variable holds at most one term of its own, the
cell of a constant always holds one, and the cell of a mutex variable is a
handle of a slot that all copies of the variable share.
-/

namespace Deliberation

/--
A path with at least one segment: the view that a literal belongs to, and the
name that the literal has in it.
-/
structure Symbol where
  view : Path
  name : String
deriving DecidableEq

namespace Symbol

/-- All the segments. -/
def path (f : Symbol) : Path := ⟨f.view.segments ++ [f.name]⟩

/-- A path as a symbol, unless it is empty. -/
def ofPath? (p : Path) : Option Symbol :=
  if p.isEmpty then none else some ⟨p.parent, p.last⟩

def text (f : Symbol) : String := f.path.text

end Symbol

/-- The handle of a shared slot. -/
abbrev SlotId := Nat

mutual

/-- A functor with arguments and annotations, a negation flag and an at mark. -/
structure Literal where
  functor : Symbol
  arguments : List Term
  annotations : List Literal
  negated : Bool
  marked : Bool

/-- The place where a variable keeps its binding. -/
inductive Cell where
  | free (value : Option Term)
  | constant (value : Term)
  | mutex (slot : SlotId)
  | relocate (target : Path) (value : Option Term)

/-- A named cell. -/
structure Variable where
  name : Path
  cell : Cell

/-- An argument of a literal. -/
inductive Term where
  | raw (v : Value)
  | var (x : Variable)
  | lit (l : Literal)

end

instance : Inhabited Term := ⟨.raw .empty⟩

/-- The kind of a variable, which its bindings never change. -/
inductive VariableKind where
  | free
  | constant
  | mutex
  | relocate (target : Path)
deriving DecidableEq

def Cell.kind : Cell → VariableKind
  | .free _ => .free
  | .constant _ => .constant
  | .mutex _ => .mutex
  | .relocate target _ => .relocate target

namespace Variable

/-- An unbound free variable. -/
def unbound (name : Path) : Variable := ⟨name, .free none⟩

def kind (x : Variable) : VariableKind := x.cell.kind

def isMutex (x : Variable) : Bool := x.kind = .mutex

/-- The outer variable that a relocating variable stands for. -/
def target? (x : Variable) : Option Path :=
  match x.cell with
  | .relocate target _ => some target
  | _ => none

/-- Whether two variables share one slot. -/
def shares (x y : Variable) : Bool :=
  match x.cell, y.cell with
  | .mutex a, .mutex b => a == b
  | _, _ => false

/-- The variables of a list, each name once, in the order of first appearance. -/
def distinct (vars : List Variable) : List Variable :=
  vars.foldl
    (fun found x => if found.any (·.name = x.name) then found else found ++ [x]) []

end Variable

/-! ## Construction -/

namespace Literal

/-- A literal with the given functor path, which must not be empty. -/
def build (functor : Path) (arguments : List Term) (annotations : List Literal)
    (negated marked : Bool) : Except TermError Literal :=
  match Symbol.ofPath? functor with
  | some symbol => .ok ⟨symbol, arguments, annotations, negated, marked⟩
  | none => .error .emptyFunctor

/-- The character that negates a literal. -/
def negationMark : Char := '~'

/-- The character that sets the at mark. -/
def atMark : Char := '@'

/--
A literal from a functor text.  A negation mark or an at mark anywhere in the
text sets the flag; all marks are removed before the functor is read.
-/
def ofText (text : String) (arguments : List Term) : Except TermError Literal :=
  let marks := [negationMark, atMark]
  build (Path.parse (String.ofList (text.toList.filter fun c => !marks.contains c)))
    arguments [] (text.toList.contains negationMark) (text.toList.contains atMark)

def arity (l : Literal) : Nat := l.arguments.length

/-- The literal seen from above a view: the view's path comes before the functor. -/
def under (view : Path) (l : Literal) : Literal :=
  { l with functor := ⟨view ++ l.functor.view, l.functor.name⟩ }

/--
The literal as it is kept inside its view.  The name is read as a path of its
own; a name that is blank altogether leaves the literal as it is.
-/
def inView (l : Literal) : Literal :=
  match Symbol.ofPath? (Path.parse l.functor.name) with
  | some symbol => { l with functor := symbol }
  | none => l

/-- The literal with the other negation flag. -/
def negate (l : Literal) : Literal :=
  { l with negated := !l.negated }

end Literal

/-! ## Variables of a term -/

mutual

/-- The variables met in a term from left to right; the cells of variables are not searched. -/
def Term.occurrences : Term → List Variable
  | .raw _ => []
  | .var x => [x]
  | .lit l => l.occurrences

/-- The variables met in a literal, arguments before annotations. -/
def Literal.occurrences : Literal → List Variable
  | ⟨_, arguments, annotations, _, _⟩ =>
      Term.occurrencesAll arguments ++ Literal.occurrencesAll annotations

/-- The variables met in a list of terms. -/
def Term.occurrencesAll : List Term → List Variable
  | [] => []
  | t :: rest => t.occurrences ++ Term.occurrencesAll rest

/-- The variables met in a list of literals. -/
def Literal.occurrencesAll : List Literal → List Variable
  | [] => []
  | l :: rest => l.occurrences ++ Literal.occurrencesAll rest

end

def Term.hasVariable (t : Term) : Bool := !t.occurrences.isEmpty

def Literal.hasVariable (l : Literal) : Bool := !l.occurrences.isEmpty

/-- The variables of a literal, each name once, in the order of first appearance. -/
def Literal.vars (l : Literal) : List Variable := Variable.distinct l.occurrences

/-- Whether a variable with the name occurs in a term. -/
def Term.mentions (name : Path) (t : Term) : Bool :=
  t.occurrences.any (·.name = name)

/-! ## Replacing variables -/

mutual

/-- Put a term in the place of every variable. -/
def Term.substitute (f : Variable → Term) : Term → Term
  | .raw v => .raw v
  | .var x => f x
  | .lit l => .lit (l.substitute f)

/-- Put a term in the place of every variable of the arguments and annotations. -/
def Literal.substitute (f : Variable → Term) : Literal → Literal
  | ⟨functor, arguments, annotations, negated, marked⟩ =>
      ⟨functor, Term.substituteAll f arguments, Literal.substituteAll f annotations,
        negated, marked⟩

/-- Put a term in the place of every variable of a list of terms. -/
def Term.substituteAll (f : Variable → Term) : List Term → List Term
  | [] => []
  | t :: rest => t.substitute f :: Term.substituteAll f rest

/-- Put a term in the place of every variable of a list of literals. -/
def Literal.substituteAll (f : Variable → Term) : List Literal → List Literal
  | [] => []
  | l :: rest => l.substitute f :: Literal.substituteAll f rest

end

section Effects

variable {m : Type → Type} [Monad m]

mutual

/-- Put a term in the place of every variable with effects, from left to right. -/
def Term.substituteM (f : Variable → m Term) : Term → m Term
  | .raw v => pure (.raw v)
  | .var x => f x
  | .lit l => do
      let l ← l.substituteM f
      pure (.lit l)

/-- Put a term in the place of every variable with effects, arguments before annotations. -/
def Literal.substituteM (f : Variable → m Term) : Literal → m Literal
  | ⟨functor, arguments, annotations, negated, marked⟩ => do
      let arguments ← Term.substituteAllM f arguments
      let annotations ← Literal.substituteAllM f annotations
      pure ⟨functor, arguments, annotations, negated, marked⟩

/-- Put a term in the place of every variable of a list of terms with effects. -/
def Term.substituteAllM (f : Variable → m Term) : List Term → m (List Term)
  | [] => pure []
  | t :: rest => do
      let t ← t.substituteM f
      let rest ← Term.substituteAllM f rest
      pure (t :: rest)

/-- Put a term in the place of every variable of a list of literals with effects. -/
def Literal.substituteAllM (f : Variable → m Term) : List Literal → m (List Literal)
  | [] => pure []
  | l :: rest => do
      let l ← l.substituteM f
      let rest ← Literal.substituteAllM f rest
      pure (l :: rest)

end

end Effects

end Deliberation
