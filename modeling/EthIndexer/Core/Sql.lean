import Mathlib.Data.List.Basic

/-!
# A fragment of SQL

What a query builder assembles is text; `parse` says which statement the text
is, if any, and `Select.Answers` what the statement returns.

The fragment is one `SELECT` over the `UNION ALL` of two tables, with an
optional conjunction of `column op $k` comparisons, an `ORDER BY` and a `LIMIT`
and `OFFSET` given by placeholders.

* `lex` cuts the text into maximal runs of one character class;
  `lex_append_space`: a space separates what is before it from what is after it.
* `parse` is by cases on the tokens, without backtracking.
* `Answers` is a relation: rows that compare equal may come in any order.
-/
namespace EthIndexer.Sql

/-! ## Lexer -/

abbrev Lexeme := List Char

inductive CharClass where
  | word
  | operator
  | space
  | single
  deriving DecidableEq

def charClass (c : Char) : CharClass :=
  if c.isAlphanum || c = '_' || c = '$' then .word
  else if c = '=' || c = '<' || c = '>' || c = ':' then .operator
  else if c = ' ' || c = '\n' then .space
  else .single

/-- `c` continues the run `w`, which is kept reversed. -/
def joins : Lexeme → Char → Bool
  | [], _ => false
  | d :: _, c => charClass d = charClass c && (charClass c = .word || charClass c = .operator)

def endRun : Lexeme → List Lexeme
  | [] => []
  | w => [w.reverse]

/-- The lexemes of the text after the run `w`. -/
def lexFrom (w : Lexeme) : List Char → List Lexeme
  | [] => endRun w
  | c :: cs =>
    if joins w c then lexFrom (c :: w) cs
    else if charClass c = .space then endRun w ++ lexFrom [] cs
    else endRun w ++ lexFrom [c] cs

def lex (s : String) : List Lexeme := lexFrom [] s.toList

theorem lexFrom_append_space (w : Lexeme) (a b : List Char) :
    lexFrom w (a ++ ' ' :: b) = lexFrom w a ++ lexFrom [] b := by
  induction a generalizing w with
  | nil =>
    have hj : joins w ' ' = false := by
      cases w with
      | nil => rfl
      | cons d w => simp [joins, charClass]
    simp only [List.nil_append, lexFrom, hj, Bool.false_eq_true, if_false]
    rfl
  | cons c a ih =>
    simp only [List.cons_append, lexFrom, ih]
    split
    · rfl
    · split <;> exact (List.append_assoc _ _ _).symm

/-- A space before or after a boundary separates the lexemes. -/
theorem lexFrom_append {w : Lexeme} {a b : List Char}
    (h : a.getLast? = some ' ' ∨ b.head? = some ' ') :
    lexFrom w (a ++ b) = lexFrom w a ++ lexFrom [] b := by
  rcases h with h | h
  · obtain ⟨a', ha⟩ := List.getLast?_eq_some_iff.mp h
    rw [ha, List.append_assoc, List.singleton_append, lexFrom_append_space, lexFrom_append_space]
    simp only [lexFrom, endRun, List.append_nil]
  · obtain ⟨b', hb⟩ := List.head?_eq_some_iff.mp h
    rw [hb, lexFrom_append_space]
    rfl

/-! ## Tokens -/

inductive Keyword where
  | SELECT
  | FROM
  | UNION
  | ALL
  | AS
  | WHERE
  | AND
  | ORDER
  | BY
  | ASC
  | DESC
  | LIMIT
  | OFFSET
  deriving DecidableEq

def Keyword.spellings : List (String × Keyword) :=
  [("SELECT", .SELECT), ("FROM", .FROM), ("UNION", .UNION), ("ALL", .ALL), ("AS", .AS),
    ("WHERE", .WHERE), ("AND", .AND), ("ORDER", .ORDER), ("BY", .BY), ("ASC", .ASC),
    ("DESC", .DESC), ("LIMIT", .LIMIT), ("OFFSET", .OFFSET)]

inductive CmpOp where
  | eq
  | le
  | ge
  deriving DecidableEq

inductive Token where
  | keyword (k : Keyword)
  | name (w : Lexeme)
  | placeholder (k : Nat)
  | op (o : CmpOp)
  | comma
  | lparen
  | rparen
  | cast
  | unknown (w : Lexeme)
  deriving DecidableEq

def digits (ds : List Char) : Nat := ds.foldl (fun n d => 10 * n + (d.toNat - '0'.toNat)) 0

/-- Keywords are written in capitals and names in small letters. -/
def classify : Lexeme → Token
  | [','] => .comma
  | ['('] => .lparen
  | [')'] => .rparen
  | ['='] => .op .eq
  | ['<', '='] => .op .le
  | ['>', '='] => .op .ge
  | [':', ':'] => .cast
  | '$' :: d :: ds => if (d :: ds).all Char.isDigit then .placeholder (digits (d :: ds))
      else .unknown ('$' :: d :: ds)
  | w =>
    if w.all Char.isUpper then
      match Keyword.spellings.find? fun k => k.1.toList = w with
      | some k => .keyword k.2
      | none => .unknown w
    else if w.all (fun c => c.isAlphanum || c = '_') && !(w.head?.any Char.isDigit) then .name w
    else .unknown w

def tokens (s : String) : List Token := (lex s).map classify

theorem tokens_append {a b : String}
    (h : a.toList.getLast? = some ' ' ∨ b.toList.head? = some ' ') :
    tokens (a ++ b) = tokens a ++ tokens b := by
  simp only [tokens, lex, String.toList_append, lexFrom_append h, List.map_append]

/-- The characters of a literal, without decoding it. -/
theorem toList_of_eq {s : String} {cs : List Char} (h : s = String.ofList cs) : s.toList = cs := by
  rw [h, String.toList_ofList]

/-! ## Statements -/

/-- `column` or `column::type AS name`. -/
structure Item where
  column : Lexeme
  type : Option Lexeme
  name : Lexeme
  deriving DecidableEq

/-- `column op $k`. -/
structure Comparison where
  column : Lexeme
  op : CmpOp
  placeholder : Nat
  deriving DecidableEq

structure OrderTerm where
  column : Lexeme
  descending : Bool
  deriving DecidableEq

/-- `SELECT columns FROM table`. -/
structure Source where
  columns : List Lexeme
  table : Lexeme
  deriving DecidableEq

structure Select where
  items : List Item
  left : Source
  right : Source
  conjuncts : List Comparison
  order : List OrderTerm
  limit : Nat
  offset : Nat
  deriving DecidableEq

/-! ## Parser -/

def parseItems : List Token → Option (List Item × List Token)
  | .name c :: .cast :: .name ty :: .keyword .AS :: .name a :: .comma :: ts =>
    (parseItems ts).map fun p => (⟨c, some ty, a⟩ :: p.1, p.2)
  | .name c :: .cast :: .name ty :: .keyword .AS :: .name a :: ts => some ([⟨c, some ty, a⟩], ts)
  | .name c :: .comma :: ts => (parseItems ts).map fun p => (⟨c, none, c⟩ :: p.1, p.2)
  | .name c :: ts => some ([⟨c, none, c⟩], ts)
  | _ => none

def parseColumns : List Token → Option (List Lexeme × List Token)
  | .name c :: .comma :: ts => (parseColumns ts).map fun p => (c :: p.1, p.2)
  | .name c :: ts => some ([c], ts)
  | _ => none

def parseSource : List Token → Option (Source × List Token)
  | .keyword .SELECT :: ts =>
    match parseColumns ts with
    | some (cs, .keyword .FROM :: .name t :: ts) => some (⟨cs, t⟩, ts)
    | _ => none
  | _ => none

def parseUnion (ts : List Token) : Option ((Source × Source) × List Token) :=
  match parseSource ts with
  | some (l, .keyword .UNION :: .keyword .ALL :: ts) =>
    (parseSource ts).map fun p => ((l, p.1), p.2)
  | _ => none

def parseConjuncts : List Token → Option (List Comparison × List Token)
  | .name c :: .op o :: .placeholder k :: .keyword .AND :: ts =>
    (parseConjuncts ts).map fun p => (⟨c, o, k⟩ :: p.1, p.2)
  | .name c :: .op o :: .placeholder k :: ts => some ([⟨c, o, k⟩], ts)
  | _ => none

def parseWhere : List Token → Option (List Comparison × List Token)
  | .keyword .WHERE :: ts => parseConjuncts ts
  | ts => some ([], ts)

def parseOrder : List Token → Option (List OrderTerm × List Token)
  | .name c :: .keyword .DESC :: .comma :: ts =>
    (parseOrder ts).map fun p => (⟨c, true⟩ :: p.1, p.2)
  | .name c :: .keyword .ASC :: .comma :: ts =>
    (parseOrder ts).map fun p => (⟨c, false⟩ :: p.1, p.2)
  | .name c :: .keyword .DESC :: ts => some ([⟨c, true⟩], ts)
  | .name c :: .keyword .ASC :: ts => some ([⟨c, false⟩], ts)
  | _ => none

/-- `SELECT items FROM (source UNION ALL source) AS name`. -/
def parseHead : List Token → Option ((List Item × Source × Source) × List Token)
  | .keyword .SELECT :: ts =>
    match parseItems ts with
    | some (items, .keyword .FROM :: .lparen :: ts) =>
      match parseUnion ts with
      | some (u, .rparen :: .keyword .AS :: .name _ :: ts) => some ((items, u), ts)
      | _ => none
    | _ => none
  | _ => none

/-- `ORDER BY terms LIMIT $k OFFSET $k`, and nothing after it. -/
def parseTail : List Token → Option (List OrderTerm × Nat × Nat)
  | .keyword .ORDER :: .keyword .BY :: ts =>
    match parseOrder ts with
    | some (order, [.keyword .LIMIT, .placeholder l, .keyword .OFFSET, .placeholder o]) =>
      some (order, l, o)
    | _ => none
  | _ => none

def parseTokens (ts : List Token) : Option Select := do
  let ((items, left, right), ts) ← parseHead ts
  let (conjuncts, ts) ← parseWhere ts
  let (order, limit, offset) ← parseTail ts
  pure ⟨items, left, right, conjuncts, order, limit, offset⟩

def parse (s : String) : Option Select := parseTokens (tokens s)

/-- A comparison without its right-hand side is no statement. -/
theorem parseTokens_dangling {ts rest : List Token} {head : List Item × Source × Source}
    {c : Lexeme} {o : CmpOp}
    (h : parseHead ts =
      some (head, .keyword .WHERE :: .name c :: .op o :: .keyword .AND :: rest)) :
    parseTokens ts = none := by
  obtain ⟨items, left, right⟩ := head
  simp only [parseTokens, h, bind, Option.bind, parseWhere, parseConjuncts]

/-! ## Meaning -/

/-- `int` is an integer of any SQL width. -/
inductive Value where
  | int (i : Int)
  | bytea (b : List UInt8)
  | text (s : String)
  deriving DecidableEq

/-- Values of different types do not compare. -/
def Value.cmp : Value → Value → Option Ordering
  | .int a, .int b => some (compare a b)
  | .bytea a, .bytea b => some (compare a b)
  | .text a, .text b => some (compare a b)
  | _, _ => none

def CmpOp.holds : CmpOp → Ordering → Bool
  | .eq, o => o.isEq
  | .le, o => o.isLE
  | .ge, o => o.isGE

/-- `value::type`. -/
def Value.castTo : Option Lexeme → Value → Option Value
  | none, v => some v
  | some ['t', 'e', 'x', 't'], .int i => some (.text (toString i))
  | some _, _ => none

/-- What is bound to `$k`. -/
def bound? (binds : List Value) (k : Nat) : Option Value :=
  if k = 0 then none else binds[k - 1]?

/-- Tables of rows of one type, and the columns of a row. -/
structure Catalog (R : Type) where
  table : Lexeme → Option (List R)
  column : Lexeme → R → Option Value

namespace Select
variable {R : Type} (s : Select) (cat : Catalog R) (binds : List Value)

/-- The rows of the union. -/
def rows : Option (List R) :=
  if s.left.columns = s.right.columns then do
    let l ← cat.table s.left.table
    let r ← cat.table s.right.table
    pure (l ++ r)
  else none

/-- A column of the union. -/
def column (c : Lexeme) (r : R) : Option Value :=
  if c ∈ s.left.columns then cat.column c r else none

def test (r : R) (c : Comparison) : Option Bool := do
  let v ← s.column cat c.column r
  let b ← bound? binds c.placeholder
  let o ← v.cmp b
  pure (c.op.holds o)

/-- The `WHERE` clause; `none` where it does not type. -/
def keeps (r : R) : Option Bool :=
  (s.conjuncts.mapM (s.test cat binds r)).map (·.all id)

/-- The `ORDER BY` comparison, term by term. -/
def orderCmp (r r' : R) : Ordering :=
  s.order.foldr (fun t o =>
    (((s.column cat t.column r).bind fun v => (s.column cat t.column r').bind fun v' =>
      if t.descending then v'.cmp v else v.cmp v').getD .eq).then o) .eq

def project (r : R) : Option (List Value) :=
  s.items.mapM fun i => (s.column cat i.column r).bind (Value.castTo i.type)

/-- `out` is a possible result. -/
def Answers (out : List (List Value)) : Prop :=
  ∃ all sorted : List R, ∃ limit offset : Nat,
    s.rows cat = some all ∧ (∀ r ∈ all, (s.keeps cat binds r).isSome) ∧
    sorted.Perm (all.filter fun r => s.keeps cat binds r = some true) ∧
    sorted.Pairwise (fun r r' => s.orderCmp cat r r' ≠ .gt) ∧
    bound? binds s.limit = some (.int limit) ∧ bound? binds s.offset = some (.int offset) ∧
    ((sorted.drop offset).take limit).mapM (s.project cat) = some out

end Select
end EthIndexer.Sql
