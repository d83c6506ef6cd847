import Pone.Compile.Node
import Pone.Compile.Numbering

/-!
# The names in the generated C file

`_pone_compile` prints a function for every sub and try into a buffer of its own and refers to it
where the sub or try stands; `pone_compile` writes prototypes for the subs, the functions in the
order in which they were begun, and the function of the file.  The text is kept as far as C's scopes
are concerned: what it declares, what it refers to and its braces.

A program's skeleton is how its subs, tries and classes nest.
-/

namespace Pone
namespace Compile
namespace Names

section Text

inductive Text where
  | empty
  | declare (x : String)
  | refer (x : String)
  | braces (inner : Text)
  | seq (first second : Text)
  deriving DecidableEq

/-- The names in scope after a text. -/
def Text.scope : Text → List String → List String
  | .declare x, env => x :: env
  | .seq first second, env => second.scope (first.scope env)
  | .empty, env | .refer _, env | .braces _, env => env

/-- Every name that a text refers to is declared before, in a scope that covers the reference. -/
def Text.Covered : Text → List String → Prop
  | .refer x, env => x ∈ env
  | .braces inner, env => inner.Covered env
  | .seq first second, env => first.Covered env ∧ second.Covered (first.scope env)
  | .empty, _ | .declare _, _ => True

def Text.all (texts : List Text) : Text := texts.foldr .seq .empty

def Text.uses (names : List String) : Text := .all (names.map .refer)

end Text

section Printing

structure Function where
  name : String
  /-- What stands between its braces. -/
  body : Text
  deriving DecidableEq

/-- What compiling a node prints: in place, as functions, and for `subnames`. -/
structure Printed where
  text : Text
  functions : List Function
  prototypes : List String
  deriving DecidableEq

abbrev Printer := Naming → Printed × Naming

def Printer.write (text : Text) : Printer := fun st => (⟨text, [], []⟩, st)

def Printer.uses (names : List String) : Printer := .write (.uses names)

def Printer.followedBy (first second : Printer) : Printer := fun st =>
  let (p, st) := first st
  let (q, st) := second st
  (⟨.seq p.text q.text, p.functions ++ q.functions, p.prototypes ++ q.prototypes⟩, st)

def Printer.braced (inner : Printer) : Printer := fun st =>
  let (p, st) := inner st
  ({ p with text := .braces p.text }, st)

/-- The body of a function whose code is printed. -/
def functionBody (printed : Text) : Text :=
  .all [.refer "world", .declare "FUNC_NAME", printed, .refer "world"]

/-- `PVIP_NODE_FUNC`.  The reference to an anonymous sub takes its number after the body. -/
def printSub (name : Option String) (inner : Printer) : Printer := fun st =>
  let entered := Naming.enter name st
  let (p, left) := inner entered
  let function := (entered.sub name).function
  let owner := if name.isSome && left.inClass then ["klass"] else []
  ({ text := .uses ("world" :: (left.sub name).function :: owner)
     functions := ⟨function, functionBody p.text⟩ :: p.functions
     prototypes := function :: p.prototypes }, left)

/-- `PVIP_NODE_TRY`, whose function has no prototype. -/
def printTry (inner : Printer) : Printer := fun st =>
  let entered := st.enterTry
  let (p, left) := inner entered
  ({ text := .uses ["world", left.attempt.function]
     functions := ⟨entered.attempt.function, functionBody p.text⟩ :: p.functions
     prototypes := p.prototypes }, left)

/-- `PVIP_NODE_CLASS`. -/
def printClass (inner : Printer) : Printer := fun st =>
  let (p, left) := inner { st with inClass := true }
  let text := Text.all [.refer "world", .declare "klass", .refer "world", .refer "klass", p.text]
  ({ p with text := .braces text }, { left with inClass := false })

/-- `PVIP_NODE_FOR`. -/
def printFor (iter body : Printer) : Printer :=
  ((Printer.write (.declare "iter")).followedBy ((Printer.uses ["world"]).followedBy
    (iter.followedBy (((Printer.uses ["world"]).followedBy
      ((Printer.write (.declare "next")).followedBy
        ((Printer.uses ["world", "iter", "next"]).followedBy body))).braced)))).braced

def text : Name String → String
  | .user x => x
  | .topic => "$_"
  | .logical id => "$<LOGICAL" ++ id.repr ++ ">"

/-- `_pone_compile`, as far as names are concerned.  Of the nodes that are one kind here, some refer
to fewer locals than is printed for them. -/
def print : Node String → Printer
  | .atom => .uses ["world", "self"]
  | .nop | .done => .uses []
  | .var _ | .my _ | .next | .last => .uses ["world"]
  | .myAssign _ rhs | .myList _ rhs | .assign _ rhs | .inplace _ rhs =>
      (Printer.uses ["world"]).followedBy (print rhs)
  | .op args => (Printer.uses ["world", "FUNC_NAME", "self"]).followedBy (print args)
  | .conditional cond yes no => (print cond).followedBy ((print yes).followedBy (print no))
  | .logicalOp left right =>
      (Printer.uses ["world"]).followedBy ((print left).followedBy (print right))
  | .funcall _ args => (Printer.uses ["world", "FUNC_NAME"]).followedBy (print args)
  | .func name params body => printSub (name.map text) ((print params).followedBy (print body))
  | .params list => (Printer.uses ["n", "world"]).followedBy (print list)
  | .param _ default =>
      (Printer.uses ["n"]).followedBy ((Printer.uses ["world", "args"]).braced.followedBy
        ((Printer.uses ["world"]).followedBy (print default)).braced)
  | .attempt body => printTry (print body)
  | .klass _ body => printClass (print body)
  | .block body => ((Printer.uses ["world"]).followedBy (print body)).braced
  | .statements head rest => (print head).followedBy (print rest)
  | .ifThen cond body rest | .elsif cond body rest =>
      (print cond).followedBy ((print body).braced.followedBy (print rest))
  | .otherwise body => (print body).braced
  | .forLoop iter body => printFor (print iter) (print body)
  | .whileLoop cond body => (print cond).followedBy (print body).braced
  | .ret e => print e

end Printing

section Unit

/-- The parameters of every printed function. -/
def parameters : List String := ["world", "self", "n", "args"]

/-- The C file. -/
structure CFile where
  prototypes : List String
  functions : List Function
  /-- The function that runs the file. -/
  loader : Text

/-- `pone_compile`. -/
def compileFile (program : Node String) : CFile :=
  let printed := (print (withReturns program) ⟨0, false⟩).1
  { prototypes := printed.prototypes
    functions := printed.functions
    loader := .all [.declare "FUNC_NAME", printed.text, .refer "world"] }

/-- The functions one after the other: each may refer to itself, to those before it and to what is
declared above. -/
def FunctionsCovered (declared : List String) : List Function → Prop
  | [] => True
  | f :: rest =>
      f.body.Covered (parameters ++ f.name :: declared) ∧
        FunctionsCovered (f.name :: declared) rest

def identifierChar (c : Char) : Bool := c.isAlphanum || c == '_'

/-- Letters, digits and underscores, and no digit first.  No keyword of C begins like the names that
are printed. -/
def IsIdentifier (x : String) : Prop :=
  (∀ c ∈ x.toList, identifierChar c) ∧ x.toList.head?.any fun c => c.isAlpha || c == '_'

/-- Functions have identifiers for names, no two the same, and every reference is declared. -/
structure CFile.WellNamed (file : CFile) : Prop where
  valid : ∀ f ∈ file.functions, IsIdentifier f.name
  distinct : (file.functions.map Function.name).Nodup
  functions : FunctionsCovered file.prototypes file.functions
  loader : file.loader.Covered
    (parameters ++ ((file.functions.map Function.name).reverse ++ file.prototypes))

end Unit

section Skeleton

/-- How the subs, tries and classes of a program nest. -/
inductive Skeleton where
  | leaf
  | seq (first second : Skeleton)
  | klass (body : Skeleton)
  /-- A sub, anonymous when it has no name. -/
  | func (name : Option String) (body : Skeleton)
  | attempt (body : Skeleton)
  deriving DecidableEq

def skeleton : Node String → Skeleton
  | .atom | .nop | .done | .var _ | .my _ | .next | .last => .leaf
  | .myAssign _ e | .myList _ e | .assign _ e | .inplace _ e | .op e | .funcall _ e | .params e
  | .param _ e | .block e | .otherwise e | .ret e => skeleton e
  | .conditional cond yes no => .seq (skeleton cond) (.seq (skeleton yes) (skeleton no))
  | .logicalOp left right => .seq (skeleton left) (skeleton right)
  | .func name params body => .func (name.map text) (.seq (skeleton params) (skeleton body))
  | .attempt body => .attempt (skeleton body)
  | .klass _ body => .klass (skeleton body)
  | .statements head rest => .seq (skeleton head) (skeleton rest)
  | .ifThen cond body rest | .elsif cond body rest =>
      .seq (skeleton cond) (.seq (skeleton body) (skeleton rest))
  | .forLoop iter body => .seq (skeleton iter) (skeleton body)
  | .whileLoop cond body => .seq (skeleton cond) (skeleton body)

namespace Skeleton

/-- How many anonymous subs and tries there are. -/
def numbered : Skeleton → Nat
  | leaf => 0
  | seq first second => first.numbered + second.numbered
  | klass body => body.numbered
  | func none body => body.numbered + 1
  | func (some _) body => body.numbered
  | attempt body => body.numbered + 1

/-- The subs and tries in the order in which they begin, where some numbers have been given before. -/
def definitions : Skeleton → Nat → List (Definition String)
  | leaf, _ => []
  | seq first second, no => first.definitions no ++ second.definitions (no + first.numbered)
  | klass body, no => body.definitions no
  | func none body, no => .anonymous (no + 1) :: body.definitions (no + 1)
  | func (some x) body, no => .named x :: body.definitions no
  | attempt body, no => .attempt (no + 1) :: body.definitions (no + 1)

def hasClass : Skeleton → Bool
  | leaf => false
  | seq first second => first.hasClass || second.hasClass
  | klass _ => true
  | func _ body | attempt body => body.hasClass

/-- No try stands in a sub or another try, and none contains an anonymous sub. -/
def TriesApart : Skeleton → Bool → Prop
  | leaf, _ => True
  | seq first second, outside => first.TriesApart outside ∧ second.TriesApart outside
  | klass body, outside => body.TriesApart outside
  | func _ body, _ => body.TriesApart false
  | attempt body, outside => outside = true ∧ body.numbered = 0

/-- A named sub that is compiled as a method stands in its class with no sub or try in between: in
`klass` something is a class body of the same function, and `inClass` says whether a class is open,
which the end of any class inside of it ends. -/
def MethodsInClass : Skeleton → Bool → Bool → Prop
  | leaf, _, _ => True
  | seq first second, inClass, here =>
      first.MethodsInClass inClass here ∧
        second.MethodsInClass (inClass && !first.hasClass) here
  | klass body, _, _ => body.MethodsInClass true true
  | func none body, inClass, _ | attempt body, inClass, _ => body.MethodsInClass inClass false
  | func (some _) body, inClass, here =>
      body.MethodsInClass inClass false ∧ ((inClass && !body.hasClass) = true → here = true)

end Skeleton

/-- The names that the program gives to subs. -/
def subNames (definitions : List (Definition String)) : List String :=
  definitions.filterMap fun
    | .named x => some x
    | .anonymous _ | .attempt _ => none

/-- The condition on a program under which its C file is well named. -/
structure Skeleton.Nameable (s : Skeleton) : Prop where
  letters : ∀ x ∈ subNames (s.definitions 0), ∀ c ∈ x.toList, identifierChar c
  distinct : (subNames (s.definitions 0)).Nodup
  /-- No sub is named like the function of an anonymous one. -/
  notAnonymous : ∀ no, .anonymous no ∈ s.definitions 0 →
    "anon_" ++ no.repr ∉ subNames (s.definitions 0)
  tries : s.TriesApart true
  methods : s.MethodsInClass false false

end Skeleton

end Names
end Compile
end Pone
