import Pone.Syntax.Action

/-!
# The grammar of Pone

The rules of `pone.y` that the start rule `comp_init` reaches, in the order of the file.  The
variables of a rule are numbered from the last one that it declares.  The line numbers of nodes are
left out, and so are `ENTER` and `LEAVE`, which only keep them.
-/

namespace Pone
namespace Syntax

open Greg

inductive RuleName where
  | compInit | bom | statementlist | statement | normalOrPostfixStmt | enumStmt | lastStmt
  | nextStmt | hasStmt | attrVars | normalStmt | returnStmt | moduleStmt | useStmt | pkgName
  | whileStmt | whileUntil | forStmt | unlessStmt | ifStmt | parenArgs | bareArgs | expr
  | looseOrExpr | looseAndExpr | listPrefixExpr | reduceOperator | commaOperatorExpr
  | looseUnaryExpr | itemAssignmentExpr | conditionalExpr | tightOr | tightAnd | chainingInfixExpr
  | structuralInfixExpr | funcall | namedUnaryExpr | concatenationExpr | replicationExpr
  | additiveExpr | multiplicativeExpr | symbolicUnary | exponentiationExpr | autoincrementExpr
  | methodPostfixExpr | atkeyKey | term | enum | funcref | twvars | reserved | role | klass
  | classDeclare | isDoesList | itMethod | ident | hash | pair | hashKey | qw | qwList | qwItem
  | funcdef | lambda | params | param | paramTerm | paramDefaults | block | array | variable
  | scalar | varname | eatTerminator | decNumber | complex | integer | integerInt | string | dqString
  | dqStringInner | regexpStart | regexp | esc | sqString | comment | ws | pod
  /-- The rule `-`. -/
  | dash
  | endOfLine | endOfFile
  deriving DecidableEq

abbrev Expr := Node RuleName Act

/-! ## Notation of greg -/

/-- The bytes of a literal. -/
def bytes (s : String) : List UInt8 := s.toByteArray.data.toList

/-- The set of a character class, as `makeCharClass` reads it. -/
def memClass (b : UInt8) : Option UInt8 → List UInt8 → Bool
  | some low, 45 :: high :: rest => (low ≤ b && b ≤ high) || memClass b none rest
  | _, c :: rest => b == c || memClass b (some c) rest
  | _, [] => false

def charClass (s : String) : UInt8 → Bool :=
  match bytes s with
  | 94 :: rest => fun b => !memClass b none rest
  | chars => fun b => memClass b none chars

def lit (s : String) : Expr := .string (bytes s)

def cls (s : String) : Expr := .cclass (charClass s)

def seq : List Expr → Expr
  | [] => .string []
  | [node] => node
  | node :: rest => .sequence node (seq rest)

def alt : List Expr → Expr
  | [] => .string []
  | [node] => node
  | node :: rest => .alternate node (alt rest)

/-- `< … >`. -/
def marked (nodes : List Expr) : Expr := seq [.textBegin, seq nodes, .textEnd]

def gap : Expr := .name .dash

def ws1 : Expr := .plus (.name .ws)

def no (node : Expr) : Expr := .peekNot node

def opt (nodes : List Expr) : Expr := .query (seq nodes)

def many (nodes : List Expr) : Expr := .star (seq nodes)

/-- `{ $$ = …; }`. -/
def gives (operand : Operand) : Expr := .action (give operand)

/-- An infix operator and its right operand, which fold the variable `k` with `j`. -/
def infixOp (op : String) (guard : List Expr) (type : NodeType) (k j : Nat) (right : RuleName) :
    Expr :=
  seq ([gap, lit op] ++ guard ++ [gap, .named j right, .action (combine type k j)])

/-- An assignment operator and its right operand, after the space before it. -/
def assignOp (op : String) (type : NodeType) : Expr :=
  seq [lit op, gap, .named 0 .itemAssignmentExpr, .action (combine type 1 0)]

/-- A comparison, which becomes a child of the chain in the variable 1. -/
def chainOp (op : String) (guard : List Expr) (type : NodeType) : Expr :=
  seq ([gap, lit op] ++ guard ++ [gap, .named 0 .structuralInfixExpr,
    .action (push 1 (children type [var 0]))])

/-- The value of a chain of comparisons: without a comparison it is its only child. -/
def giveUnchained (k : Nat) : Act := fun _ vm =>
  match vm.var k with
  | some (.children _ [node]) => some { vm with ss := some node }
  | some node => some { vm with ss := some node }
  | none => none

/-- An assignment to a list, a binding, or a binding that makes its target readonly. -/
def listOp (op : String) (type : NodeType) (k j : Nat) : Expr :=
  seq [gap, lit op, no (lit "="), gap, .named j .listPrefixExpr,
    .action (acts [store k (children type [var k, var j]), give (var k)])]

/-- `$?LINE`. -/
def lineNumber : Operand := fun _ vm => some (some (.int .int vm.data.lineNumber))

def zero : Operand := fun _ _ => some (some (.int .int 0))

/-- A string of the bytes of `v->pv`. -/
def stringIn (k : Nat) : Operand := fun _ vm =>
  match vm.var k with
  | some (.string _ pv) => some (some (.string .string pv))
  | _ => none

/-- A literal of digits in the base that `v->iv` gives, as an `int`. -/
def intfBase (k : Nat) : Operand := fun yytext vm =>
  match vm.var k with
  | some (.int _ iv) => (Tree.intf (iv.bmod (2 ^ 32)) yytext).map some
  | _ => none

/-- What a block becomes: a hash where its first statement is a pair or a list of pairs. -/
def giveBlock (k : Nat) : Act := fun yytext vm =>
  match vm.var k with
  | none => give (children .block []) yytext vm
  | some (.children type (head :: rest)) =>
      if head.type = .pair ∨ head.type = .list ∧ head.allChildrenAre .pair then
        acts [changeType k .hash, give (var k)] yytext vm
      else
        some { vm with ss := some (.children .block [.children type (head :: rest)]) }
  | some _ => none

/-- A further parent or role of a class. -/
def isDoes (word : String) (type : NodeType) (k j : Nat) : Expr :=
  seq [gap, lit word, ws1, .named j .ident, .action (push k (children type [var j]))]

/-- An escape sequence of a double-quoted string. -/
def escaped (char : String) (text : List UInt8) : Expr :=
  seq [.name .esc, lit char, .action (appendS fun _ => text)]

/-- A prefix operator. -/
def prefixOp (op : String) (guard : List Expr) (type : NodeType) (operand : RuleName) : Expr :=
  seq ([lit op] ++ guard ++ [gap, .named 0 operand, gives (children type [var 0])])

/-- A postfix modifier of the statement in the variable `n`. -/
def modifier (word : String) (k n : Nat) (type : NodeType) : Expr :=
  seq [seq [.plus (lit " "), lit word, gap, .named k .expr, gap, .name .eatTerminator],
    gives (children type [var k, var n])]

/-- One form of a single-quoted string. -/
def sqForm (start stop : String) (plain : String) (escapes : List (String × String)) : Expr :=
  seq [lit start, gives (stringOf .string []),
    .star (alt ([seq [lit "\n", .action (acts [newline, append fun _ => bytes "\n"])],
      seq [marked [.plus (cls plain)], .action (append id)]] ++
      escapes.map (fun (char, text) =>
        seq [.name .esc, lit char, .action (append fun _ => bytes text)]) ++
      [seq [.name .esc, .name .esc, .action (append fun _ => bytes "\\")],
      seq [marked [.name .esc, .dot], .action (append id)]])),
    lit stop]

/-- A bracket of a multi-line comment. -/
def bracketComment (start inside stop : String) : Expr :=
  seq [lit start, .star (cls inside), lit stop]

/-! ## The rules -/

/-- The rules, each with the number of its variables. -/
def rule : RuleName → Rule RuleName Act
  | .compInit =>
      let e := 0
      ⟨1, alt [
        seq [opt [.name .bom], opt [.name .pod], .named e .statementlist, gap, .name .endOfFile,
          .action (acts [setRoot (var e), give (var e)])],
        seq [opt [.name .bom], opt [.name .pod], many [.name .ws], .name .endOfFile,
          .action (acts [give (children .statements []), setRoot dollar])]]⟩
  | .bom => ⟨0, seq [.string [0xef], .string [0xbb], .string [0xbf]]⟩
  | .statementlist =>
      let s1 := 1; let s2 := 0
      ⟨2, alt [
        seq [.named s1 .statement,
          .action (acts [give (children .statements []), pushDollar (var s1), store s1 dollar]),
          many [gap, .named s2 .statement, .action (acts [push s1 (var s2), give (var s1)])],
          opt [.name .eatTerminator]],
        seq [ws1, gives (children .statements [])]]⟩
  | .statement =>
      let bl := 1; let b := 0
      ⟨2, seq [gap, alt [
        .name .whileStmt,
        .name .useStmt,
        .name .enumStmt,
        .name .ifStmt,
        .name .forStmt,
        .name .unlessStmt,
        .name .moduleStmt,
        .name .hasStmt,
        seq [lit "...", gives (children .stub [])],
        seq [.name .funcdef, gap, many [lit ";"]],
        seq [.named bl .block, many [lit ";"]],
        seq [lit "END", gap, .named b .block, gives (children .end [var b])],
        seq [lit "BEGIN", gap, .named b .block, gives (children .begin [var b])],
        seq [.named b .normalOrPostfixStmt, gives (var b)],
        seq [.plus (lit ";"), gives (children .nop [])]]]⟩
  | .normalOrPostfixStmt =>
      let n := 3; let condIf := 2; let condUnless := 1; let condFor := 0
      ⟨4, seq [.named n .normalStmt, alt [
        modifier "if" condIf n .if,
        modifier "unless" condUnless n .unless,
        modifier "for" condFor n .for,
        modifier "while" condFor n .while,
        seq [seq [gap, .name .eatTerminator], gives (var n)]]]⟩
  | .enumStmt =>
      let i := 2; let e := 1; let q := 0
      ⟨3, alt [
        seq [lit "my", ws1, lit "enum", ws1, .named i .ident, gap, .named e .expr,
          gives (children .my [children .enum [var i, var e]])],
        seq [lit "enum", ws1, .named i .ident, gap, .named q .qw,
          gives (children .enum [var i, var q])]]⟩
  | .lastStmt => ⟨0, seq [lit "last", gives (children .last [])]⟩
  | .nextStmt => ⟨0, seq [lit "next", gives (children .next [])]⟩
  | .hasStmt =>
      let v := 1; let default := 0
      ⟨2, seq [.action (store default null), lit "has", ws1, .named v .attrVars,
        opt [gap, lit "=", gap, .named default .expr], .name .eatTerminator,
        gives (children .has [var v, maybe (var default)])]⟩
  | .attrVars =>
      ⟨0, alt [
        seq [marked [cls "$@", cls ".!", .plus (cls "a-z")], gives (string .attributeVariable)],
        .name .scalar]⟩
  | .normalStmt =>
      ⟨0, alt [.name .returnStmt, .name .lastStmt, .name .nextStmt, .name .expr]⟩
  | .returnStmt =>
      let e := 0
      ⟨1, seq [lit "return", .name .ws, .named e .expr, gives (children .return [var e])]⟩
  | .moduleStmt =>
      let pkg := 0
      ⟨1, seq [lit "module", .name .ws, .named pkg .pkgName, .name .eatTerminator,
        gives (children .module [var pkg])]⟩
  | .useStmt =>
      let id := 1; let pkg := 0
      ⟨2, alt [
        seq [lit "use", gap, .named id .ident, gap, .named pkg .pkgName, .name .eatTerminator,
          gives (children .use [var id, var pkg])],
        seq [lit "use", gap, lit ".", gap, .named pkg .pkgName, .name .eatTerminator,
          gives (children .use [stringOf .ident (bytes "."), var pkg])],
        seq [lit "use", gap, .named pkg .pkgName, .name .eatTerminator,
          gives (children .use [nop, var pkg])]]⟩
  | .pkgName =>
      ⟨0, seq [marked [cls "a-zA-Z", .star (cls "a-zA-Z0-9_"),
        many [lit "/", .plus (cls "a-zA-Z0-9_")]], gives (string .ident)]⟩
  | .whileStmt =>
      let w := 3; let cond := 2; let b := 1; let l := 0
      ⟨4, seq [.named w .whileUntil, gap, .named cond .expr, .action (push w (var cond)), gap, alt [
        seq [.named b .block, .action (acts [push w (var b), give (var w)])],
        seq [.named l .lambda, .action (acts [push w (var l), give (var w)])]]]⟩
  | .whileUntil => ⟨0, seq [lit "while", gives (children .while [])]⟩
  | .forStmt =>
      let src := 1; let body := 0
      ⟨2, alt [
        seq [lit "for", gap, .named src .expr, gap, .named body .block,
          gives (children .for [var src, var body])],
        seq [lit "for", gap, .named src .expr, gap, .named body .lambda,
          gives (children .for [var src, var body])]]⟩
  | .unlessStmt =>
      let cond := 1; let body := 0
      ⟨2, alt [
        seq [.action (store body null), lit "unless", gap, .named cond .expr, gap, lit "\x7b", gap,
          opt [.named body .statementlist], gap, lit "\x7d",
          gives (children .unless [var cond, maybe (var body)])],
        seq [.action (store body null), lit "unless", gap, .named cond .ident, gap, lit "\x7b", gap,
          opt [.named body .statementlist], gap, lit "\x7d",
          gives (children .unless [var cond, maybe (var body)])]]⟩
  | .ifStmt =>
      let ifCond := 4; let ifBody := 3; let elsifCond := 2; let elsifBody := 1; let elseBody := 0
      ⟨5, seq [.action (store ifBody null), lit "if", gap, .named ifCond .expr, gap, lit "\x7b", gap,
        opt [.named ifBody .statementlist], gap, lit "\x7d",
        .action (acts [give (children .if [var ifCond, maybe (var ifBody)]), store ifCond dollar]),
        many [ws1, lit "elsif", gap, .named elsifCond .expr, gap, lit "\x7b", gap,
          .named elsifBody .statementlist, gap, lit "\x7d",
          .action (acts [give (children .elsif [var elsifCond, var elsifBody]),
            push ifCond dollar])],
        -- the variable of the last body is not cleared: without a body it holds a stale value
        opt [ws1, lit "else", ws1, gap, lit "\x7b", gap, opt [.named elseBody .statementlist], gap,
          lit "\x7d",
          .action (ifSet elseBody
            (acts [give (children .else [var elseBody]), push ifCond dollar]) (acts []))],
        gives (var ifCond)]⟩
  | .parenArgs =>
      let a := 0
      ⟨1, alt [
        seq [lit "(", gap, .named a .expr, gap, opt [lit ","], gap, lit ")",
          .action (ifType a .list (acts [give (var a), changeType a .args, give (var a)])
            (give (children .args [var a])))],
        seq [lit "(", gap, lit ")", gives (children .args [])]]⟩
  | .bareArgs =>
      let a := 1; let b := 0
      ⟨2, seq [.named a .looseUnaryExpr,
        .action (acts [give (children .args [var a]), store a dollar]),
        many [gap, lit ",", gap, .named b .looseUnaryExpr,
          .action (acts [push a (var b), give (var a)])]]⟩
  | .expr => ⟨0, .name .looseOrExpr⟩
  | .looseOrExpr =>
      let f1 := 1; let f2 := 0
      ⟨2, seq [.named f1 .looseAndExpr,
        .star (infixOp "or" [no (cls "a-zA-Z0-9_")] .logicalOr f1 f2 .looseAndExpr),
        gives (var f1)]⟩
  | .looseAndExpr =>
      let f1 := 1; let f2 := 0
      ⟨2, seq [.named f1 .listPrefixExpr,
        .star (infixOp "and" [no (cls "a-zA-Z0-9_")] .logicalAnd f1 f2 .listPrefixExpr),
        gives (var f1)]⟩
  | .listPrefixExpr =>
      let a := 3; let b := 2; let l := 1; let r := 0
      ⟨4, alt [
        seq [lit "[", .named a .reduceOperator, lit "]", gap, .named b .commaOperatorExpr,
          gives (children .reduce [var a, var b])],
        seq [.named l .commaOperatorExpr, gives (var l),
          .star (alt [
            listOp "=" .listAssignment l r,
            listOp ":=" .bind l r,
            listOp "::=" .bindandMakeReadonly l r])]]⟩
  | .reduceOperator =>
      ⟨0, alt [
        seq [marked [lit "*"], gives (string .string)],
        seq [marked [lit "+", no (cls "<>=")], gives (string .string)],
        seq [marked [lit "-"], gives (string .string)],
        seq [marked [lit "<="], gives (string .string)],
        seq [marked [lit ">="], gives (string .string)]]⟩
  | .commaOperatorExpr =>
      let a := 1; let b := 0
      ⟨2, seq [.named a .looseUnaryExpr, gives (var a),
        many [gap, lit ",", gap, .named b .looseUnaryExpr,
          .action (ifType a .list (acts [push a (var b), give (var a)]) (combine .list a b))],
        opt [gap, lit ",",
          .action (ifType a .list (give (var a))
            (acts [give (children .list [var a]), store a dollar]))]]⟩
  | .looseUnaryExpr =>
      let f1 := 0
      ⟨1, alt [
        prefixOp "not" [no (cls "-a-zA-Z0-9")] .not .looseUnaryExpr,
        seq [.named f1 .itemAssignmentExpr, gives (var f1)]]⟩
  | .itemAssignmentExpr =>
      let a := 1
      ⟨2, seq [.named a .conditionalExpr,
        many [gap, alt [
          assignOp "=>" .pair,
          assignOp "+=" .inplaceAdd,
          assignOp "-=" .inplaceSub,
          assignOp "*=" .inplaceMul,
          assignOp "/=" .inplaceDiv,
          assignOp "%=" .inplaceMod,
          assignOp "**=" .inplacePow,
          assignOp "|=" .inplaceBinOr,
          assignOp "&=" .inplaceBinAnd,
          assignOp "^=" .inplaceBinXor,
          assignOp "<<=" .inplaceBlshift,
          assignOp ">>=" .inplaceBrshift,
          assignOp "~=" .inplaceConcatS]],
        gives (var a)]⟩
  | .conditionalExpr =>
      let e1 := 2; let e2 := 1; let e3 := 0
      ⟨3, alt [
        seq [.named e1 .tightOr, gap, lit "?", gap, .named e2 .tightOr, gap, lit ":", gap,
          .named e3 .tightOr, gives (children .conditional [var e1, var e2, var e3])],
        .name .tightOr]⟩
  | .tightOr =>
      let f1 := 1; let f2 := 0
      ⟨2, seq [.named f1 .tightAnd,
        .star (alt [
          infixOp "||" [] .logicalOr f1 f2 .tightAnd,
          infixOp "//" [] .dor f1 f2 .tightAnd]),
        gives (var f1)]⟩
  | .tightAnd =>
      let f1 := 1; let f2 := 0
      ⟨2, seq [.named f1 .chainingInfixExpr,
        .star (infixOp "&&" [] .logicalAnd f1 f2 .chainingInfixExpr),
        gives (var f1)]⟩
  | .chainingInfixExpr =>
      let f1 := 1
      ⟨2, seq [.named f1 .structuralInfixExpr,
        .action (acts [give (children .chain [var f1]), store f1 dollar]),
        .star (alt [
          chainOp "===" [] .valueIdentity,
          chainOp "==" [no (lit "=")] .eq,
          chainOp "!=" [] .ne,
          chainOp "<" [] .lt,
          chainOp "<=" [] .le,
          chainOp ">" [] .gt,
          chainOp ">=" [] .ge,
          chainOp "~~" [] .smartMatch,
          chainOp "!~~" [] .notSmartMatch,
          chainOp "eqv" [] .eqv,
          chainOp "eq" [] .streq,
          chainOp "ne" [] .strne,
          chainOp "gt" [] .strgt,
          chainOp "ge" [] .strge,
          chainOp "lt" [] .strlt,
          chainOp "le" [] .strle]),
        .action (giveUnchained f1)]⟩
  | .structuralInfixExpr =>
      let a1 := 1; let a2 := 0
      ⟨2, seq [.named a1 .namedUnaryExpr,
        .query (alt [
          infixOp ".." [no (lit ".")] .range a1 a2 .namedUnaryExpr,
          infixOp "cmp" [no (cls "a-z")] .cmp a1 a2 .namedUnaryExpr,
          infixOp "<=>" [] .numCmp a1 a2 .namedUnaryExpr]),
        gives (var a1)]⟩
  | .funcall =>
      let i := 1; let a := 0
      ⟨2, alt [
        seq [no (.name .reserved), .named i .ident, gap, .named a .parenArgs,
          gives (children .funcall [var i, var a])],
        seq [no (.name .reserved), .named i .ident, ws1, no (lit "\x7b"), .named a .bareArgs,
          gives (children .funcall [var i, var a])]]⟩
  | .namedUnaryExpr =>
      let type := 2; let a := 1; let i := 0
      ⟨3, alt [
        seq [.action (store type null), lit "my", ws1, opt [.named type .ident], gap,
          .named a .concatenationExpr, gives (children .my [maybe (var type), var a])],
        seq [lit "our", ws1, .named a .concatenationExpr, gives (children .our [var a])],
        seq [no (.name .reserved), .named i .ident, ws1, .named a .bareArgs,
          gives (children .funcall [var i, var a])],
        .name .concatenationExpr]⟩
  | .concatenationExpr => ⟨0, .name .replicationExpr⟩
  | .replicationExpr =>
      let l := 1; let r := 0
      ⟨2, seq [.named l .additiveExpr,
        .star (infixOp "x" [no (cls "a-zA-Z0-9_")] .repeatS l r .additiveExpr),
        gives (var l)]⟩
  | .additiveExpr =>
      let l := 2; let r1 := 1; let r2 := 0
      ⟨3, seq [.named l .multiplicativeExpr,
        .star (alt [
          infixOp "+" [no (cls "|<>=")] .add l r1 .multiplicativeExpr,
          infixOp "-" [no (lit "-")] .sub l r2 .multiplicativeExpr,
          infixOp "~" [no (lit "~")] .stringConcat l r2 .multiplicativeExpr,
          infixOp "|" [no (cls "<>=")] .bitwiseOr l r1 .multiplicativeExpr,
          infixOp "^" [no (cls "<>=")] .bitwiseXor l r1 .multiplicativeExpr]),
        gives (var l)]⟩
  | .multiplicativeExpr =>
      let l := 2; let r := 1; let r1 := 0
      ⟨3, seq [.named l .symbolicUnary,
        .star (alt [
          infixOp "*" [] .mul l r .symbolicUnary,
          infixOp "/" [no (lit "/")] .div l r .symbolicUnary,
          infixOp "%" [no (lit "%")] .mod l r .symbolicUnary,
          infixOp ">>" [] .brshift l r .symbolicUnary,
          infixOp "<<" [] .blshift l r .symbolicUnary,
          infixOp "&" [no (cls "<>=")] .bitwiseAnd l r1 .multiplicativeExpr]),
        gives (var l)]⟩
  | .symbolicUnary =>
      ⟨1, alt [
        prefixOp "+" [no (lit "^")] .unaryPlus .exponentiationExpr,
        prefixOp "-" [no (lit "-")] .unaryMinus .exponentiationExpr,
        prefixOp "!" [] .not .symbolicUnary,
        prefixOp "~" [] .stringify .exponentiationExpr,
        prefixOp "?" [] .unaryBoolean .exponentiationExpr,
        prefixOp "^" [] .unaryUpto .exponentiationExpr,
        .name .exponentiationExpr]⟩
  | .exponentiationExpr =>
      let f1 := 1; let f2 := 0
      ⟨2, seq [.named f1 .autoincrementExpr,
        .star (infixOp "**" [] .pow f1 f2 .autoincrementExpr),
        gives (var f1)]⟩
  | .autoincrementExpr =>
      let v := 1; let n := 0
      ⟨2, alt [
        seq [lit "++", .named v .variable, gives (children .preinc [var v])],
        seq [lit "--", .named v .variable, gives (children .predec [var v])],
        seq [.named n .methodPostfixExpr, alt [
          seq [lit "++", gives (children .postinc [var n])],
          seq [lit "--", gives (children .postdec [var n])],
          seq [lit "", gives (var n)]]]]⟩
  | .methodPostfixExpr =>
      let f1 := 4; let k := 3; let f2 := 2; let f3 := 1; let a := 0
      ⟨5, seq [.named f1 .term, gives (var f1),
        .star (alt [
          seq [lit "\x7b", gap, .named k .term, gap, lit "\x7d", .action (combine .atkey f1 k)],
          seq [lit "<", gap, .named k .atkeyKey, gap, lit ">", .action (combine .atkey f1 k)],
          seq [lit ".^", .named f2 .ident, .action (store f3 null), opt [.named f3 .parenArgs],
            .action (acts [give (children .metaMethodCall [var f1, var f2, maybe (var f3)]),
              store f1 dollar])],
          seq [lit "[", gap, .named f2 .expr, gap, lit "]", .action (combine .atpos f1 f2)],
          seq [lit ".", .named f2 .ident, seq [.named f3 .parenArgs,
            .action (acts [give (children .methodcall [var f1, var f2, var f3]),
              store f1 dollar])]],
          seq [lit ".", .named f2 .ident, .action (combine .methodcall f1 f2)],
          seq [lit ".", .named f2 .string, .named f3 .parenArgs,
            .action (acts [give (children .methodcall [var f1, var f2, var f3]),
              store f1 dollar])],
          seq [.named a .parenArgs, .action (combine .funcall f1 a)]])]⟩
  | .atkeyKey => ⟨0, seq [marked [.plus (cls "^>")], gives (string .string)]⟩
  | .term =>
      let e := 2; let b := 1; let t := 0
      ⟨3, alt [
        .name .complex,
        .name .integer,
        .name .decNumber,
        .name .string,
        seq [lit "(", gap, .named e .expr, gap, lit ")", gives (var e)],
        .name .variable,
        seq [lit "$?LINE", gives lineNumber],
        .name .array,
        .name .klass,
        .name .role,
        .name .funcall,
        .name .qw,
        .name .hash,
        .name .lambda,
        .name .itMethod,
        .name .enum,
        seq [lit "nil", no (cls "-a-zA-Z0-9"), gives (children .nil [])],
        seq [lit "try", .name .ws, gap, .named b .block, gives (children .try [var b])],
        seq [lit "try", ws1, .named b .expr, gives (children .try [var b])],
        .name .regexp,
        seq [lit "True", no (cls "-a-zA-Z0-9"), gives (children .true [])],
        seq [lit "False", no (cls "-a-zA-Z0-9"), gives (children .false [])],
        seq [no (.name .reserved), .name .ident],
        seq [marked [lit "class"], gives (string .ident)],
        .name .pair,
        seq [lit "\\", .named t .term, gives (children .ref [var t])],
        seq [lit "(", gap, lit ")", gives (children .list [])],
        .name .funcref,
        seq [lit "*", no (cls "*="), gives (children .whatever [])],
        .name .attrVars]⟩
  | .enum =>
      let q := 0
      ⟨1, seq [lit "enum", ws1, .named q .qw, gives (children .enum [nop, var q])]⟩
  | .funcref =>
      let i := 0
      ⟨1, seq [lit "&", .named i .ident, gives (children .funcref [var i])]⟩
  | .twvars =>
      ⟨0, alt [
        seq [marked [lit "$*", cls "A-Z", .plus (cls "A-Z_")], gives (string .twvar)],
        seq [lit "$^a", gives (children .twA [])],
        seq [lit "$^b", gives (children .twB [])],
        seq [lit "$^c", gives (children .twC [])]]⟩
  | .reserved =>
      ⟨0, seq [alt [lit "True", lit "False", lit "my", lit "our", lit "while", lit "unless",
        lit "if", lit "elsif", lit "else", lit "role", lit "class", lit "try", lit "has",
        lit "sub", lit "cmp", lit "enum", lit "END", lit "BEGIN", lit "not", lit "and", lit "or",
        lit "use", lit "nil"], no (cls "-A-Za-z0-9")]⟩
  | .role =>
      let i := 1; let b := 0
      ⟨2, seq [lit "role", ws1, .named i .ident, gap, .named b .block,
        gives (children .role [var i, var b])]⟩
  | .klass => ⟨0, .name .classDeclare⟩
  | .classDeclare =>
      let i := 2; let is := 1; let b := 0
      ⟨3, seq [.action (acts [store i null, store is null]), lit "class", opt [ws1, .named i .ident],
        gap, opt [.named is .isDoesList], gap, .named b .block,
        gives (children .class [maybe (var i), maybe (var is), var b])]⟩
  | .isDoesList =>
      let a := 1; let b := 0
      ⟨2, alt [
        seq [lit "is", ws1, .named a .ident,
          .action (store a (children .list [children .is [var a]])),
          .star (alt [isDoes "is" .is a b, isDoes "does" .does a b]), gives (var a)],
        seq [lit "does", ws1, .named a .ident,
          .action (store a (children .list [children .does [var a]])),
          .star (alt [isDoes "is" .is a b, isDoes "does" .does a b]), gives (var a)]]⟩
  | .itMethod =>
      let i := 1; let a := 0
      ⟨2, seq [seq [lit ".", .named i .ident,
        .action (acts [give (children .itMethodcall [var i]), store i dollar]),
        opt [.named a .parenArgs, .action (push i (var a))]], gives (var i)]⟩
  | .ident =>
      ⟨0, alt [
        seq [marked [opt [lit "::"], cls "A-Za-z", .star (cls "-A-Za-z0-9_"),
          many [lit "::", cls "A-Za-z", .star (cls "A-Za-z0-9_")]], gives (string .ident)],
        seq [marked [cls "a-zA-Z_", .star (cls "a-zA-Z0-9"),
          many [cls "-_", .plus (cls "a-zA-Z0-9")]], gives (string .ident)]]⟩
  | .hash =>
      let p1 := 1; let p2 := 0
      ⟨2, alt [
        seq [lit "\x7b", gap, .named p1 .pair,
          .action (acts [give (children .hash [var p1]), store p1 dollar]),
          many [gap, lit ",", gap, .named p2 .pair, .action (acts [push p1 (var p2), give (var p1)])],
          opt [lit ","], gap, lit "\x7d", gives (var p1)],
        seq [lit "\x7b", gap, lit "\x7d", gives (children .hash [])]]⟩
  | .pair =>
      let k := 3; let v := 2; let key := 1; let value := 0
      ⟨4, alt [
        seq [.named k .hashKey, gap, lit "=>", gap, .named v .looseUnaryExpr,
          gives (children .pair [var k, var v])],
        seq [lit ":", marked [.named key .ident], lit "<", .named value .ident, lit ">",
          .action (acts [changeType key .string, changeType value .string,
            give (children .pair [var key, var value])])],
        seq [lit ":", marked [.named key .ident], lit "(", .named value .expr, lit ")",
          .action (acts [changeType key .string, give (children .pair [var key, var value])])],
        seq [lit ":", marked [.named key .ident], lit "[", gap, .named value .expr, gap, lit "]",
          .action (acts [changeType key .string, give (children .pair [var key, var value])])],
        seq [lit ":", marked [.plus (cls "a-z")],
          gives (children .pair [string .string, children .true []])],
        seq [lit ":!", marked [.plus (cls "a-z")],
          gives (children .pair [string .string, children .false []])],
        seq [lit ":", .named v .variable, gives (children .pair [stringIn v, var v])]]⟩
  | .hashKey =>
      ⟨0, alt [
        seq [marked [.plus (cls "a-zA-Z0-9_")], gives (string .string)],
        .name .string]⟩
  | .qw =>
      ⟨0, alt [
        seq [lit "<<", gap, .name .qwList, gap, lit ">>"],
        seq [lit "<", gap, .name .qwList, gap, lit ">"],
        seq [lit "<", gap, lit ">", gives (children .list [])]]⟩
  | .qwList =>
      let a := 1; let b := 0
      ⟨2, seq [.named a .qwItem, .action (acts [give (children .list [var a]), store a dollar]),
        many [ws1, .named b .qwItem, .action (acts [push a (var b), give (var a)])],
        gives (var a)]⟩
  | .qwItem => ⟨0, seq [marked [.plus (cls "^ >\n")], gives (string .string)]⟩
  | .funcdef =>
      let f := 3; let i := 2; let p := 1; let b := 0
      ⟨4, alt [
        seq [lit "my", .name .ws, gap, .named f .funcdef, gives (children .my [nop, var f])],
        seq [lit "our", .name .ws, gap, .named f .funcdef, gives (children .our [var f])],
        seq [lit "sub", .action (store p null), ws1, .named i .ident, gap, lit "(", gap,
          opt [.named p .params], gap, lit ")", gap, .named b .block,
          .action (acts [ifSet p (acts []) (store p (children .params [])),
            give (children .func [var i, var p, nop, var b])])],
        seq [lit "sub", ws1, .named i .ident, gap, .named b .block,
          gives (children .func [var i, children .params [], nop, var b])]]⟩
  | .lambda =>
      let p := 1; let b := 0
      ⟨2, alt [
        seq [.action (store p null), lit "->", gap, opt [no (lit "\x7b"), .named p .params], gap,
          .named b .block,
          .action (acts [ifSet p (acts []) (store p (children .params [])),
            give (children .lambda [var p, var b])])],
        seq [.named b .block, gives (children .lambda [var b])],
        seq [.action (store p null), lit "sub", no (cls "-a-zA-Z0-9"), gap,
          opt [no (lit "\x7b"), .named p .params], gap, .named b .block,
          .action (acts [ifSet p (acts []) (store p (children .params [])),
            give (children .func [nop, var p, nop, var b])])]]⟩
  | .params =>
      let v := 1; let v1 := 0
      ⟨2, seq [.named v .param, .action (acts [give (children .params [var v]), store v dollar]),
        many [gap, lit ",", gap, .named v1 .param, .action (acts [push v (var v1), give (var v)])],
        gives (var v)]⟩
  | .param =>
      let i := 2; let v := 1; let d := 0
      ⟨3, seq [.action (acts [store i null, store d null]),
        seq [opt [.named i .ident, ws1], .named v .paramTerm,
          many [gap, .named d .paramDefaults]],
        gives (children .param [maybe (var i), var v, maybe (var d), zero])]⟩
  | .paramTerm => ⟨0, .name .term⟩
  | .paramDefaults =>
      let e := 0
      ⟨1, seq [lit "=", gap, .named e .expr, gives (var e)]⟩
  | .block =>
      let s := 0
      ⟨1, seq [.action (store s null),
        seq [lit "\x7b", gap, opt [.named s .statementlist], gap, lit "\x7d", no (lit ".")],
        .action (giveBlock s)]⟩
  | .array =>
      let e := 0
      ⟨1, alt [
        seq [lit "[", gap, .named e .expr, gap, lit "]",
          .action (ifType e .list (acts [changeType e .array, give (var e)])
            (give (children .array [var e])))],
        seq [lit "[", gap, lit "]", gives (children .array [])]]⟩
  | .variable => ⟨0, alt [.name .scalar, .name .twvars, .name .funcref, .name .attrVars]⟩
  | .scalar =>
      ⟨0, alt [
        seq [marked [lit "$", .name .varname], gives (string .variable)],
        seq [lit "$!", no (cls "a-zA-Z0-9_"), gives (children .specialVariableErrno [])],
        seq [lit "$$", no (cls "a-zA-Z0-9_"), gives (children .specialVariablePid [])],
        seq [lit "$@", no (cls "a-zA-Z0-9_"), gives (children .specialVariableExceptions [])],
        seq [lit "$/", gives (children .specialVariableRegexpMatch [])]]⟩
  | .varname =>
      ⟨0, seq [cls "a-zA-Z_", .star (alt [
        .plus (cls "a-zA-Z0-9_"),
        seq [lit "-", cls "a-zA-Z_", .star (cls "a-zA-Z0-9_")]])]⟩
  | .eatTerminator => ⟨0, alt [seq [lit ";", gap], .name .endOfFile]⟩
  | .decNumber =>
      ⟨0, alt [
        seq [marked [.plus (cls "0-9"), opt [lit ".", .plus (cls "0-9")], lit "e", opt [lit "-"],
          .plus (cls "0-9")], gives (number .number)],
        seq [marked [cls ".", .plus (cls "0-9")], gives (number .number)],
        seq [marked [.plus (cls "0-9"), lit ".", .plus (cls "0-9")], gives (number .number)],
        seq [marked [.plus (cls "0-9_")], gives (intf 10)]]⟩
  | .complex =>
      ⟨0, seq [marked [alt [
        seq [.plus (cls "0-9"), opt [lit ".", .plus (cls "0-9")]],
        seq [lit ".", .plus (cls "0-9")]]], lit "i", gives (number .complex)]⟩
  | .integer =>
      let i := 0
      ⟨1, alt [
        seq [lit "0b", marked [.plus (cls "01_")], gives (intf 2)],
        seq [lit "0d", marked [.plus (cls "0-9")], gives (intf 10)],
        seq [lit "0x", marked [.plus (cls "0-9a-fA-F_")], gives (intf 16)],
        seq [lit "0o", marked [.plus (cls "0-7")], gives (intf 8)],
        seq [lit ":10<", marked [.plus (cls "0-9")], lit ">", gives (intf 10)],
        seq [lit ":", .named i .integerInt, lit "<", marked [.plus (cls "0-9a-fA-F")], lit ">",
          gives (intfBase i)]]⟩
  | .integerInt => ⟨0, seq [marked [.plus (cls "0-9")], gives (intf 10)]⟩
  | .string => ⟨0, alt [.name .dqString, .name .sqString]⟩
  | .dqString =>
      ⟨0, alt [
        seq [lit "\"", .action strInit,
          .star (alt [.name .dqStringInner, seq [lit ">", .action (appendS fun _ => bytes ">")]]),
          lit "\"", .action strPop],
        seq [lit "qq<", .action strInit,
          .star (alt [.name .dqStringInner, seq [lit "\"", .action (appendS fun _ => bytes "\"")]]),
          lit ">", .action strPop]]⟩
  | .dqStringInner =>
      let e := 3; let h := 2; let k := 1; let v := 0
      ⟨4, alt [
        seq [lit "\n", .action (acts [newline, appendS fun _ => bytes "\n"])],
        seq [lit "#\x7b", gap, .named e .expr, gap, lit "\x7d", .action (appendN (var e))],
        seq [lit "#\x7b", gap, lit "\x7d", .action (appendS fun _ => [])],
        seq [marked [.plus (cls "^>\"#\\\n$%")], .action (appendS id)],
        seq [marked [lit "#", no (cls "\x7b")], .action (appendS id)],
        seq [.named h .variable, lit "<", gap, .named k .atkeyKey, gap, lit ">",
          .action (appendN (children .atkey [var h, var k]))],
        seq [.named h .variable, lit "\x7b", gap, .named k .expr, gap, lit "\x7d",
          .action (appendN (children .atkey [var h, var k]))],
        seq [.named h .variable, alt [seq [lit "\x7b", gap, lit "\x7d"], seq [lit "<", gap, lit ">"]],
          .action (appendN (children .stringify [var h]))],
        seq [lit "%", .action (appendS fun _ => bytes "%")],
        seq [.named v .variable, .action (appendN (var v))],
        escaped "a" [7],
        escaped "b" [8],
        escaped "t" [9],
        escaped "r" [13],
        escaped "n" [10],
        escaped "\"" (bytes "\""),
        escaped "$" (bytes "\""),
        escaped "0" [0],
        escaped "\x7b" (bytes "\x7b"),
        seq [.name .esc, lit "c[", marked [.plus (cls "^]")], lit "]",
          .action (appendN (string .unicodeChar))],
        seq [.name .esc, lit "c", marked [cls "0-9", cls "0-9"], .action (appendCode 10)],
        seq [seq [.name .esc, lit "x", alt [
          seq [opt [lit "0"], marked [cls "a-fA-F0-9", cls "a-fA-F0-9"]],
          seq [lit "[", opt [lit "0"], marked [cls "a-fA-F0-9", cls "a-fA-F0-9"], lit "]"]]],
          .action (appendCode 16)],
        seq [.name .esc, lit "o", marked [alt [
          seq [cls "0-7", cls "0-7"],
          seq [lit "0", cls "0-7", cls "0-7"]]], .action (appendCode 8)],
        seq [.name .esc, lit "o[", opt [lit "0"], marked [cls "0-7", cls "0-7"],
          .action (appendCode 8),
          many [lit ",", opt [lit "0"], marked [cls "0-7", cls "0-7"], .action (appendCode 8)],
          lit "]"],
        seq [.name .esc, .name .esc, .action (appendS fun _ => bytes "\\")]]⟩
  | .regexpStart => ⟨0, seq [alt [lit "m/", lit "/"], gives (stringOf .regexp [])]⟩
  | .regexp =>
      let r := 0
      ⟨1, seq [.named r .regexpStart, .plus (alt [
        seq [marked [.plus (cls "^/")], .action (appendTo r id)],
        seq [.name .esc, lit "/", .action (appendTo r fun _ => bytes "/")]]), lit "/",
        gives (var r)]⟩
  | .esc => ⟨0, lit "\\"⟩
  | .sqString =>
      ⟨0, alt [
        sqForm "'" "'" "^'\\\n" [("'", "'")],
        sqForm "q/" "/" "^/\\\n" [("'", "'"), ("/", "/")],
        sqForm "q!" "!" "^!\\\n" [("'", "'"), ("/", "/")],
        sqForm "q|" "|" "^|\\\n" [("'", "'"), ("/", "/")],
        sqForm "q\x7b" "\x7d" "^\x7d\\\n" [("'", "'"), ("/", "/")],
        sqForm "q<" ">" "^>\\\n" [("'", "'"), (">", ">")],
        sqForm "q@" "@" "^@\\\n" [("'", "'"), ("@", "~")],
        sqForm "q~" "~" "^~\\\n" [("'", "'"), ("~", "~")],
        sqForm "q," "," "^,\\\n" [(",", "'"), ("~", "~")],
        sqForm "q[" "]" "^]\\\n" [("'", "'"), ("]", "]")]]⟩
  | .comment =>
      ⟨0, alt [
        bracketComment "#`[" "^]" "]",
        bracketComment "#`(" "^)" ")",
        bracketComment "#`（" "^）" "）",
        bracketComment "#`『" "^』" "』",
        bracketComment "#`《" "^》" "》",
        seq [lit "#", .star (cls "^\n"), .name .endOfLine]]⟩
  | .ws =>
      ⟨0, alt [
        seq [lit "\n", .name .pod],
        seq [lit "\n=begin END\n", .star .dot],
        lit " ",
        lit "\x0c",
        lit "\x0b",
        lit "\t",
        .string [0x85],
        .string [0xa0],
        seq [lit "\n=END\n", .star .dot],
        .name .endOfLine,
        .name .comment]⟩
  | .pod =>
      ⟨0, seq [lit "=begin ", .plus (cls "a-z"), .star (lit " "), lit "\n", .action newline,
        many [no (lit "=end "), .star (cls "^\n"), lit "\n", .action newline],
        lit "=end ", .plus (cls "a-z"), .star (lit " "), lit "\n", .action newline]⟩
  | .dash => ⟨0, .star (.name .ws)⟩
  | .endOfLine => ⟨0, seq [alt [lit "\x0d\n", lit "\n", lit "\x0d"], .action newline]⟩
  | .endOfFile => ⟨0, no (.string [0])⟩

end Syntax
end Pone
