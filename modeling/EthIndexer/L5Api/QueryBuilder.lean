import EthIndexer.Core.Sql

/-!
# The query builder

`QueryBuilder` is the SQL text and the bind list of sqlx 0.7.4. `push` appends
text verbatim and `pushBind` appends the next placeholder. `Separated` writes
through a builder: both of its operations first emit the separator, unless
nothing has been pushed through it yet. What is assembled only ever grows at its
end (`Extends`), and `pushValues` binds what its tuples bind
(`pushValues_arguments`).
-/
namespace EthIndexer.L5

structure QueryBuilder where
  query : String
  arguments : List Sql.Value

namespace QueryBuilder

def new (init : String) : QueryBuilder := ⟨init, []⟩

def push (q : QueryBuilder) (sql : String) : QueryBuilder := { q with query := q.query ++ sql }

def pushBind (q : QueryBuilder) (value : Sql.Value) : QueryBuilder where
  query := q.query ++ ("$" ++ toString (q.arguments.length + 1))
  arguments := q.arguments ++ [value]

/-- The text of `q'` continues the text of `q`. -/
def Extends (q q' : QueryBuilder) : Prop := ∃ rest, q'.query = q.query ++ rest

theorem Extends.trans {a b c : QueryBuilder} (h₁ : a.Extends b) (h₂ : b.Extends c) :
    a.Extends c := by
  obtain ⟨r₁, h₁⟩ := h₁
  obtain ⟨r₂, h₂⟩ := h₂
  exact ⟨r₁ ++ r₂, by rw [h₂, h₁, String.append_assoc]⟩

theorem extends_push (q : QueryBuilder) (sql : String) : q.Extends (q.push sql) := ⟨sql, rfl⟩

theorem extends_pushBind (q : QueryBuilder) (value : Sql.Value) : q.Extends (q.pushBind value) :=
  ⟨_, rfl⟩

end QueryBuilder

structure Separated where
  queryBuilder : QueryBuilder
  separator : String
  /-- something has been pushed -/
  pushSeparator : Bool

def QueryBuilder.separated (q : QueryBuilder) (separator : String) : Separated :=
  ⟨q, separator, false⟩

namespace Separated

/-- The separator, where it is due. -/
def separate (f : Separated) : QueryBuilder :=
  if f.pushSeparator then f.queryBuilder.push f.separator else f.queryBuilder

def push (f : Separated) (sql : String) : Separated :=
  { f with queryBuilder := f.separate.push sql, pushSeparator := true }

def pushBind (f : Separated) (value : Sql.Value) : Separated :=
  { f with queryBuilder := f.separate.pushBind value, pushSeparator := true }

def pushUnseparated (f : Separated) (sql : String) : Separated :=
  { f with queryBuilder := f.queryBuilder.push sql }

theorem extends_separate (f : Separated) : f.queryBuilder.Extends f.separate := by
  unfold separate
  split
  · exact QueryBuilder.extends_push _ _
  · exact ⟨"", by simp⟩

theorem extends_push (f : Separated) (sql : String) :
    f.queryBuilder.Extends (f.push sql).queryBuilder :=
  f.extends_separate.trans (QueryBuilder.extends_push _ _)

theorem extends_pushBind (f : Separated) (value : Sql.Value) :
    f.queryBuilder.Extends (f.pushBind value).queryBuilder :=
  f.extends_separate.trans (QueryBuilder.extends_pushBind _ _)

theorem separate_arguments (f : Separated) : f.separate.arguments = f.queryBuilder.arguments := by
  unfold separate
  split <;> rfl

theorem push_arguments (f : Separated) (sql : String) :
    (f.push sql).queryBuilder.arguments = f.queryBuilder.arguments :=
  f.separate_arguments

theorem pushBind_arguments (f : Separated) (value : Sql.Value) :
    (f.pushBind value).queryBuilder.arguments = f.queryBuilder.arguments ++ [value] := by
  rw [← f.separate_arguments]
  rfl

theorem pushBinds_arguments (f : Separated) (values : List Sql.Value) :
    (values.foldl pushBind f).queryBuilder.arguments = f.queryBuilder.arguments ++ values := by
  induction values generalizing f with
  | nil => rw [List.foldl_nil, List.append_nil]
  | cons v values ih =>
    rw [List.foldl_cons, ih, pushBind_arguments, List.append_assoc, List.singleton_append]

end Separated

/-! ## `VALUES` -/

namespace QueryBuilder
variable {α : Type}

/-- One tuple of a `VALUES` list: its binds in parentheses, through a separated
builder of their own. -/
def pushTuple (f : Separated) (values : List Sql.Value) : Separated :=
  let f := f.push "("
  Separated.pushUnseparated
    { f with queryBuilder :=
        (values.foldl Separated.pushBind (f.queryBuilder.separated ", ")).queryBuilder } ")"

/-- `push_values`, where `binds` lists what the closure binds for a tuple. -/
def pushValues (q : QueryBuilder) (tuples : List α) (binds : α → List Sql.Value) : QueryBuilder :=
  (tuples.foldl (fun f t => pushTuple f (binds t))
    ((q.push "VALUES ").separated ", ")).queryBuilder

theorem pushTuple_arguments (f : Separated) (values : List Sql.Value) :
    (pushTuple f values).queryBuilder.arguments = f.queryBuilder.arguments ++ values := by
  unfold pushTuple Separated.pushUnseparated
  dsimp only [push]
  rw [Separated.pushBinds_arguments]
  exact congrArg (· ++ values) (f.push_arguments "(")

theorem pushValues_arguments (q : QueryBuilder) (tuples : List α) (binds : α → List Sql.Value) :
    (q.pushValues tuples binds).arguments = q.arguments ++ tuples.flatMap binds := by
  have hfold : ∀ f : Separated,
      (tuples.foldl (fun f t => pushTuple f (binds t)) f).queryBuilder.arguments =
        f.queryBuilder.arguments ++ tuples.flatMap binds := by
    induction tuples with
    | nil => intro f; simp
    | cons t tuples ih =>
      intro f
      rw [List.foldl_cons, ih, pushTuple_arguments, List.flatMap_cons, List.append_assoc]
  exact hfold _

end QueryBuilder
end EthIndexer.L5
