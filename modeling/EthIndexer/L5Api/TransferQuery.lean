import EthIndexer.L5Api.Schema

/-!
# What `erc20Transfers` returns

`Page`: the rows a request asks for. `StatesQuery`: the assembled text is a
statement with one comparison per supplied filter, every placeholder is bound to
its own value, and its result is that page.

`transfers_query`: this is so exactly for the requests without a filter. With a
filter the text is no statement (`parse_of_filter`) and the request fails.
-/
namespace EthIndexer.L5
open EthIndexer.L1 EthIndexer.L2

/-! ## The database as SQL sees it -/

/-- mirrors migrations/001_create_erc20_transfers.sql:1-16 -/
def transferColumns : List (String × (Erc20TransferRecord → Sql.Value)) :=
  [("block_number", fun r => .int r.blockNumber.toInt), ("block_hash", fun r => .bytea r.blockHash),
    ("txn_hash", fun r => .bytea r.txnHash), ("log_index", fun r => .int r.logIndex.toInt),
    ("contract_address", fun r => .bytea r.contractAddress),
    ("from_address", fun r => .bytea r.fromAddress), ("to_address", fun r => .bytea r.toAddress),
    ("value", fun r => .int r.value), ("timestamp", fun r => .int r.timestamp.toInt)]

def catalog (db : Db) : Sql.Catalog Erc20TransferRecord where
  table t :=
    if t = "erc20_transfers".toList then some db.cold.transfers.rows
    else if t = "hot_erc20_transfers".toList then some db.hot.transfers.rows
    else none
  column c r := (transferColumns.find? fun p => p.1.toList = c).map fun p => p.2 r

/-! ## The request -/

/-- The comparison and the value of each supplied filter. -/
def TransferFilter.comparisons (f : TransferFilter) : List (Sql.Lexeme × Sql.CmpOp × Sql.Value) :=
  (bytesValue f.fromAddress).toList.map (("from_address".toList, .eq, ·)) ++
    (bytesValue f.toAddress).toList.map (("to_address".toList, .eq, ·)) ++
    (bytesValue f.contractAddress).toList.map (("contract_address".toList, .eq, ·)) ++
    (i64Value f.minBlock).toList.map (("block_number".toList, .ge, ·)) ++
    (i64Value f.maxBlock).toList.map (("block_number".toList, .le, ·))

/-- The row satisfies every supplied filter. -/
def TransferFilter.accepts (f : TransferFilter) (r : Erc20TransferRecord) : Bool :=
  f.fromAddress.all (· = r.fromAddress) && f.toAddress.all (· = r.toAddress) &&
    f.contractAddress.all (· = r.contractAddress) && f.minBlock.all (· ≤ r.blockNumber) &&
    f.maxBlock.all (r.blockNumber ≤ ·)

/-- The limit asked for: at most 500, and 50 where none is given. -/
def pageLimit (limit : Option Int32) : Nat := min (limit.elim 50 fun l => l.toInt.toNat) 500

def pageOffset (offset : Option Int32) : Nat := offset.elim 0 fun o => o.toInt.toNat

/-- `(block_number, log_index)` descending. -/
def NewestFirst (r r' : Erc20TransferRecord) : Prop :=
  r'.blockNumber.toInt < r.blockNumber.toInt ∨
    r'.blockNumber = r.blockNumber ∧ r'.logIndex.toInt ≤ r.logIndex.toInt

/-- The row as the select list returns it. -/
def transferRow (r : Erc20TransferRecord) : List Sql.Value :=
  [.int r.blockNumber.toInt, .bytea r.blockHash, .bytea r.txnHash, .int r.logIndex.toInt,
    .bytea r.contractAddress, .bytea r.fromAddress, .bytea r.toAddress,
    .text (toString (r.value : Int)), .int r.timestamp.toInt]

/-- `out` is a page of the rows of both lanes that satisfy the filter, newest first. -/
def Page (f : TransferFilter) (limit offset : Nat) (db : Db) (out : List (List Sql.Value)) : Prop :=
  ∃ sorted : List Erc20TransferRecord,
    sorted.Perm ((db.cold.transfers.rows ++ db.hot.transfers.rows).filter f.accepts) ∧
    sorted.Pairwise NewestFirst ∧ out = ((sorted.drop offset).take limit).map transferRow

/-- The text and the bind list state the request. -/
def StatesQuery (args : Erc20TransfersArgs) (f : TransferFilter) (q : QueryBuilder) : Prop :=
  ∃ s, Sql.parse q.query = some s ∧
    s.conjuncts.map (fun c => (c.column, c.op, Sql.bound? q.arguments c.placeholder)) =
      f.comparisons.map (fun c => (c.1, c.2.1, some c.2.2)) ∧
    (s.limit + 1, s.offset) = (q.arguments.length, q.arguments.length) ∧
    Sql.bound? q.arguments s.limit = some (.int (pageLimit args.limit)) ∧
    Sql.bound? q.arguments s.offset = some (.int (pageOffset args.offset)) ∧
    ∀ db out, s.Answers (catalog db) q.arguments out ↔
      Page f (pageLimit args.limit) (pageOffset args.offset) db out

/-! ## Parsing the text -/

def columnNames : List Sql.Lexeme := transferColumns.map fun c => c.1.toList

def columnTokens (columns : List Sql.Lexeme) : List Sql.Token :=
  (columns.map Sql.Token.name).intersperse .comma

def sourceTokens (table : String) : List Sql.Token :=
  .keyword .SELECT :: columnTokens columnNames ++ [.keyword .FROM, .name table.toList]

/-- The tokens of `selectText`. -/
def selectTokens : List Sql.Token :=
  .keyword .SELECT :: columnTokens (columnNames.take 8) ++
    [.cast, .name "text".toList, .keyword .AS, .name "value".toList, .comma,
      .name "timestamp".toList, .keyword .FROM, .lparen] ++
    sourceTokens "erc20_transfers" ++ [.keyword .UNION, .keyword .ALL] ++
    sourceTokens "hot_erc20_transfers" ++
    [.rparen, .keyword .AS, .name "combined_transfers".toList]

/-- The statement without a filter. -/
def pageStatement : Sql.Select where
  items := columnNames.map fun c =>
    ⟨c, if c = "value".toList then some "text".toList else none, c⟩
  left := ⟨columnNames, "erc20_transfers".toList⟩
  right := ⟨columnNames, "hot_erc20_transfers".toList⟩
  conjuncts := []
  order := [⟨"block_number".toList, true⟩, ⟨"log_index".toList, true⟩]
  limit := 1
  offset := 2

set_option maxRecDepth 20000 in
theorem tokens_selectText : Sql.tokens selectText = selectTokens := by
  unfold Sql.tokens Sql.lex
  rw [Sql.toList_of_eq (s := selectText) rfl]
  decide +kernel

theorem parseHead_selectTokens (rest : List Sql.Token) :
    Sql.parseHead (selectTokens ++ rest) =
      some ((pageStatement.items, pageStatement.left, pageStatement.right), rest) := by
  rfl

theorem getLast_append {a b : String} (h : b.toList.getLast? = some ' ') :
    (a ++ b).toList.getLast? = some ' ' := by
  rw [String.toList_append, List.getLast?_append, h]
  rfl

/-- The texts of the five clauses, with the column and the operator in each. -/
def clauseTexts : List (String × Sql.Lexeme × Sql.CmpOp) :=
  [("from_address = ", "from_address".toList, .eq), ("to_address = ", "to_address".toList, .eq),
    ("contract_address = ", "contract_address".toList, .eq),
    ("block_number >= ", "block_number".toList, .ge),
    ("block_number <= ", "block_number".toList, .le)]

theorem clauseTexts_tokens : ∀ t ∈ clauseTexts, Sql.tokens t.1 = [.name t.2.1, .op t.2.2] := by
  decide +kernel

theorem TransferFilter.clause_mem {f : TransferFilter} {c : String × Option Sql.Value}
    (h : c ∈ f.clauses) : ∃ t ∈ clauseTexts, c.1 = t.1 := by
  have hm : f.clauses.map Prod.fst = clauseTexts.map Prod.fst := rfl
  obtain ⟨t, ht, he⟩ := List.mem_map.mp (hm ▸ List.mem_map_of_mem (f := Prod.fst) h)
  exact ⟨t, ht, he.symm⟩

/-- With a filter the text is no statement. -/
theorem parse_of_filter {f : TransferFilter} (hf : f.hasFilters = true) (limit offset : Int64) :
    Sql.parse (transfersQuery f limit offset).query = none := by
  obtain ⟨c, hc, rest, hq⟩ := query_of_filter hf limit offset
  obtain ⟨⟨sql, column, op⟩, ht, hsql⟩ := f.clause_mem hc
  have hclause := clauseTexts_tokens _ ht
  have hwhere : " WHERE ".toList.getLast? = some ' ' ∧ " WHERE ".toList.head? = some ' ' ∧
      Sql.tokens " WHERE " = [.keyword .WHERE] := by decide +kernel
  have hand : " AND ".toList.getLast? = some ' ' ∧ " AND ".toList.head? = some ' ' ∧
      Sql.tokens " AND " = [.keyword .AND] := by decide +kernel
  have htokens : Sql.tokens (transfersQuery f limit offset).query = selectTokens ++
      (.keyword .WHERE :: .name column :: .op op :: .keyword .AND :: Sql.tokens rest) := by
    rw [hq, hsql, Sql.tokens_append (.inl (getLast_append hand.1)),
      Sql.tokens_append (.inr hand.2.1), Sql.tokens_append (.inl (getLast_append hwhere.1)),
      Sql.tokens_append (.inr hwhere.2.1), tokens_selectText, hwhere.2.2, hclause, hand.2.2]
    simp only [List.append_assoc, List.cons_append, List.nil_append]
  rw [Sql.parse, htokens]
  exact Sql.parseTokens_dangling (parseHead_selectTokens _)

/-- The text after the filters, with nothing bound before it. -/
def tailText : String :=
  " ORDER BY block_number DESC, log_index DESC" ++ " LIMIT " ++ ("$" ++ toString 1) ++ " OFFSET " ++
    ("$" ++ toString 2)

/-- Two placeholders on a builder with nothing bound. -/
theorem QueryBuilder.push_two (t a b c : String) (v w : Sql.Value) :
    (((((QueryBuilder.new t).push a).push b).pushBind v).push c).pushBind w =
      ⟨t ++ (a ++ b ++ ("$" ++ toString 1) ++ c ++ ("$" ++ toString 2)), [v, w]⟩ := by
  simp only [QueryBuilder.push, QueryBuilder.pushBind, QueryBuilder.new, String.append_assoc,
    List.length_nil, List.nil_append, List.length_singleton, List.singleton_append, Nat.zero_add,
    Nat.reduceAdd]

theorem query_of_noFilter {f : TransferFilter} (hf : f.hasFilters = false) (limit offset : Int64) :
    transfersQuery f limit offset =
      ⟨selectText ++ tailText, [.int limit.toInt, .int offset.toInt]⟩ := by
  have hw : whereQuery f = .new selectText := by
    rw [whereQuery, hf]
    rfl
  rw [transfersQuery, hw]
  exact QueryBuilder.push_two _ _ _ _ _ _

theorem tokens_tailText : Sql.tokens tailText =
    [.keyword .ORDER, .keyword .BY, .name "block_number".toList, .keyword .DESC, .comma,
      .name "log_index".toList, .keyword .DESC, .keyword .LIMIT, .placeholder 1, .keyword .OFFSET,
      .placeholder 2] := by
  decide +kernel

/-- Without a filter it is `pageStatement`. -/
theorem parse_of_noFilter {f : TransferFilter} (hf : f.hasFilters = false) (limit offset : Int64) :
    Sql.parse (transfersQuery f limit offset).query = some pageStatement := by
  have hhead : tailText.toList.head? = some ' ' := by decide +kernel
  rw [query_of_noFilter hf, Sql.parse, Sql.tokens_append (.inr hhead), tokens_selectText,
    Sql.parseTokens, parseHead_selectTokens, tokens_tailText]
  rfl


/-! ## Running the statement -/

section
variable (db : Db) (r r' : Erc20TransferRecord)

theorem rows_pageStatement : pageStatement.rows (catalog db) =
    some (db.cold.transfers.rows ++ db.hot.transfers.rows) := by
  rfl

theorem project_pageStatement : pageStatement.project (catalog db) r = some (transferRow r) := by
  rfl

theorem orderCmp_pageStatement : pageStatement.orderCmp (catalog db) r r' =
    (compare r'.blockNumber.toInt r.blockNumber.toInt).then
      ((compare r'.logIndex.toInt r.logIndex.toInt).then .eq) := by
  rfl

theorem orderCmp_ne_gt : pageStatement.orderCmp (catalog db) r r' ≠ .gt ↔ NewestFirst r r' := by
  rw [orderCmp_pageStatement]
  unfold NewestFirst
  cases hb : compare r'.blockNumber.toInt r.blockNumber.toInt with
  | lt =>
    have hlt := Int.compare_eq_lt.mp hb
    simp [hlt]
  | gt =>
    have hgt := Int.compare_eq_gt.mp hb
    have hne : r'.blockNumber ≠ r.blockNumber := fun he => by rw [he] at hgt; omega
    simp [hne, Int.not_lt.mpr (Int.le_of_lt hgt)]
  | eq =>
    -- within a block the log index decides
    have he := Int64.toInt_inj.mp (Int.compare_eq_eq.mp hb)
    cases hl : compare r'.logIndex.toInt r.logIndex.toInt with
    | gt =>
      have hgt := Int.compare_eq_gt.mp hl
      simp [he, hgt]
    | lt =>
      have hlt := Int.compare_eq_lt.mp hl
      simp [he, Int.le_of_lt hlt]
    | eq =>
      have heq := Int.compare_eq_eq.mp hl
      simp [he, heq]

end

/-- The statement without a filter returns the pages of all rows. -/
theorem answers_pageStatement {f : TransferFilter} (hf : f.hasFilters = false) (limit offset : Nat)
    (db : Db) (out : List (List Sql.Value)) :
    pageStatement.Answers (catalog db) [.int limit, .int offset] out ↔
      Page f limit offset db out := by
  have hproject : pageStatement.project (catalog db) = fun r => some (transferRow r) :=
    funext fun r => project_pageStatement db r
  have hkeeps : ∀ r, pageStatement.keeps (catalog db) [.int limit, .int offset] r = some true :=
    fun _ => rfl
  have haccepts : f.accepts = fun _ => true := by
    funext r
    simp [TransferFilter.accepts, TransferFilter.hasFilters_eq_false.mp hf]
  have hmapM (l : List Erc20TransferRecord) :
      l.mapM (fun r => some (transferRow r)) = some (l.map transferRow) := List.mapM_pure
  have hbound : Sql.bound? [.int limit, .int offset] pageStatement.limit = some (.int limit) ∧
      Sql.bound? [.int limit, .int offset] pageStatement.offset = some (.int offset) := ⟨rfl, rfl⟩
  simp only [Sql.Select.Answers, rows_pageStatement, orderCmp_ne_gt, hproject, hkeeps, hmapM, Page,
    haccepts, hbound, Option.some.injEq, Sql.Value.int.injEq, decide_true, List.filter_true]
  refine ⟨fun h => ?_, fun h => ?_⟩
  · obtain ⟨all, sorted, l, o, hall, -, hperm, hsorted, hl, ho, hout⟩ := h
    obtain rfl : limit = l := by omega
    obtain rfl : offset = o := by omega
    subst hall
    exact ⟨sorted, hperm, hsorted, hout.symm⟩
  · obtain ⟨sorted, hperm, hsorted, hout⟩ := h
    exact ⟨_, sorted, limit, offset, rfl, fun _ _ => rfl, hperm, hsorted, rfl, rfl, hout.symm⟩

/-! ## The result -/

theorem normalizeLimit_ok {l : Option Int32} {limit : Int64} (h : normalizeLimit l = .ok limit) :
    limit.toInt = pageLimit l := by
  cases l with
  | none =>
    cases h
    rfl
  | some l =>
    simp only [normalizeLimit] at h
    split at h
    · cases h
    · rename_i hpos
      have hl : 0 < l.toInt := by
        rw [Int32.le_iff_toInt_le] at hpos
        exact Int.not_le.mp hpos
      have hmax : MAX_LIMIT.toInt = 500 := rfl
      have hto : l.toInt64.toInt = l.toInt := l.toInt_toInt64
      cases h
      have hmin : min l.toInt64 MAX_LIMIT = if l.toInt64 ≤ MAX_LIMIT then l.toInt64 else MAX_LIMIT :=
        rfl
      simp only [pageLimit, Option.elim, hmin, Int64.le_iff_toInt_le, hto, hmax]
      split <;> omega

theorem normalizeOffset_ok {o : Option Int32} {offset : Int64}
    (h : normalizeOffset o = .ok offset) : offset.toInt = pageOffset o := by
  cases o with
  | none =>
    cases h
    rfl
  | some o =>
    simp only [normalizeOffset] at h
    split at h
    · cases h
    · rename_i hneg
      have ho : 0 ≤ o.toInt := by
        rw [Int32.lt_iff_toInt_lt] at hneg
        exact Int.not_lt.mp hneg
      have hto : o.toInt64.toInt = o.toInt := o.toInt_toInt64
      cases h
      simp only [pageOffset, Option.elim, hto]
      omega

/-- **`erc20Transfers`, exactly.** Of the accepted requests, those that the
assembled text and bind list state are the ones that supply no filter. -/
theorem transfers_query (addressFromStr : String → Option Bytes) (args : Erc20TransfersArgs)
    (f : TransferFilter) (limit offset : Int64)
    (h : args.validate addressFromStr = .ok (f, limit, offset)) :
    StatesQuery args f (transfersQuery f limit offset) ↔ args.NoFilter := by
  obtain ⟨hnone, hl, ho⟩ := validate_ok h
  rw [← hnone]
  refine ⟨fun hq => ?_, fun hf => ?_⟩
  · by_contra hf
    obtain ⟨s, hs, -⟩ := hq
    rw [parse_of_filter (by simpa using hf)] at hs
    cases hs
  · have hcomparisons : f.comparisons = [] := by
      simp [TransferFilter.comparisons, bytesValue, i64Value,
        TransferFilter.hasFilters_eq_false.mp hf]
    refine ⟨pageStatement, parse_of_noFilter hf limit offset, ?_⟩
    rw [query_of_noFilter hf, hcomparisons, normalizeLimit_ok hl, normalizeOffset_ok ho]
    exact ⟨rfl, rfl, rfl, rfl, answers_pageStatement hf _ _⟩

/-- A request for the transfers from block 5 on. -/
def fromBlockFive : Erc20TransfersArgs := ⟨none, none, none, some 5, none, none, none⟩

/-- **Counterexample**: the text is `… WHERE block_number >=  AND $1 ORDER BY …`. -/
theorem transfersQuery_fails : ∃ f limit offset,
    fromBlockFive.validate (fun _ => none) = .ok (f, limit, offset) ∧
      Sql.parse (transfersQuery f limit offset).query = none ∧
      ¬ StatesQuery fromBlockFive f (transfersQuery f limit offset) := by
  have hparse := parse_of_filter (f := ⟨none, none, none, some 5, none⟩) rfl 50 0
  refine ⟨⟨none, none, none, some 5, none⟩, 50, 0, rfl, hparse, ?_⟩
  intro h
  obtain ⟨s, hs, -⟩ := h
  rw [hparse] at hs
  cases hs

/-- The second page of a thousand: a page of five hundred. -/
def secondPage : Erc20TransfersArgs := ⟨none, none, none, none, none, some 1000, some 1000⟩

theorem transfers_query_secondPage :
    ∃ f limit offset, secondPage.validate (fun _ => none) = .ok (f, limit, offset) ∧
      (limit, offset) = (500, 1000) ∧ StatesQuery secondPage f (transfersQuery f limit offset) := by
  refine ⟨⟨none, none, none, none, none⟩, 500, 1000, rfl, rfl, ?_⟩
  exact (transfers_query (fun _ => none) secondPage _ _ _ rfl).mpr
    ⟨rfl, rfl, rfl, rfl, rfl⟩

end EthIndexer.L5
