import EthIndexer.Core.Hex
import EthIndexer.L2Storage.Db
import EthIndexer.L5Api.QueryBuilder

/-!
# `erc20Transfers`

The GraphQL query over both lanes: the checks on its arguments (`validate`) and
the SQL text and bind list it assembles (`transfersQuery`).

The text depends on which filters are supplied and never on their values. From
the first supplied filter on it is beyond repair (`query_of_filter`): the
`pushBind` after `from_address = ` goes through the separated builder, so it
writes ` AND ` before the placeholder.
-/
namespace EthIndexer.L5
open EthIndexer.L1 EthIndexer.L2

/-- mirrors crates/api/src/schema.rs:8 -/
def DEFAULT_LIMIT : Int64 := 50

/-- mirrors crates/api/src/schema.rs:9 -/
def MAX_LIMIT : Int64 := 500

/-- mirrors crates/api/src/schema.rs:58-64 -/
structure Erc20TransfersArgs where
  fromAddress : Option String
  toAddress : Option String
  contractAddress : Option String
  minBlock : Option Int64
  maxBlock : Option Int64
  limit : Option Int32
  offset : Option Int32

/-- The filters after parsing. -/
structure TransferFilter where
  fromAddress : Option Bytes
  toAddress : Option Bytes
  contractAddress : Option Bytes
  minBlock : Option Int64
  maxBlock : Option Int64

/-! ## Arguments -/

/-- `char::is_whitespace`: the code points of `White_Space`. -/
def isWhitespace (c : Char) : Bool :=
  decide (0x9 ≤ c.toNat ∧ c.toNat ≤ 0xD) || decide (0x2000 ≤ c.toNat ∧ c.toNat ≤ 0x200A) ||
    [0x20, 0x85, 0xA0, 0x1680, 0x2028, 0x2029, 0x202F, 0x205F, 0x3000].contains c.toNat

/-- `str::trim`. -/
def trim (cs : List Char) : List Char :=
  ((cs.dropWhile isWhitespace).reverse.dropWhile isWhitespace).reverse

def stripHexPrefix : List Char → List Char
  | '0' :: 'x' :: ds => ds
  | '0' :: 'X' :: ds => ds
  | ds => ds

def isAsciiHexdigit (c : Char) : Bool := Hex.isDigit c

/-- `addressFromStr` is alloy's `str::parse::<Address>`.
mirrors crates/api/src/schema.rs:235-253 -/
def parseAddress (addressFromStr : String → Option Bytes) (value : String) : Except String Bytes :=
  let trimmed := stripHexPrefix (trim value.toList)
  -- `str::len` counts bytes
  if (String.ofList trimmed).utf8ByteSize ≠ 40 ∨ ¬ trimmed.all isAsciiHexdigit then
    .error ("Invalid Ethereum address '" ++ value ++ "'. Expected a 20-byte hex string.")
  else
    match addressFromStr ("0x" ++ String.ofList trimmed) with
    | none => .error ("Invalid Ethereum address '" ++ value ++ "'.")
    | some address => .ok address

/-- mirrors crates/api/src/schema.rs:255-261 -/
def normalizeLimit : Option Int32 → Except String Int64
  | none => .ok DEFAULT_LIMIT
  | some limit =>
    if limit ≤ 0 then .error "limit must be greater than 0" else .ok (min limit.toInt64 MAX_LIMIT)

/-- mirrors crates/api/src/schema.rs:263-269 -/
def normalizeOffset : Option Int32 → Except String Int64
  | none => .ok 0
  | some offset => if offset < 0 then .error "offset cannot be negative" else .ok offset.toInt64

/-- mirrors crates/api/src/schema.rs:66-70 -/
def checkBlockRange : Option Int64 → Option Int64 → Except String Unit
  | some minBlock, some maxBlock =>
    if maxBlock < minBlock then .error "minBlock cannot be greater than maxBlock" else .ok ()
  | _, _ => .ok ()

/-- The filters, the limit and the offset of an accepted request.
mirrors crates/api/src/schema.rs:66-79 -/
def Erc20TransfersArgs.validate (addressFromStr : String → Option Bytes)
    (args : Erc20TransfersArgs) : Except String (TransferFilter × Int64 × Int64) := do
  checkBlockRange args.minBlock args.maxBlock
  let fromAddress ← args.fromAddress.mapM (parseAddress addressFromStr)
  let toAddress ← args.toAddress.mapM (parseAddress addressFromStr)
  let contractAddress ← args.contractAddress.mapM (parseAddress addressFromStr)
  let limit ← normalizeLimit args.limit
  let offset ← normalizeOffset args.offset
  pure (⟨fromAddress, toAddress, contractAddress, args.minBlock, args.maxBlock⟩, limit, offset)

/-- None of the five filters is supplied. -/
def Erc20TransfersArgs.NoFilter (args : Erc20TransfersArgs) : Prop :=
  args.fromAddress = none ∧ args.toAddress = none ∧ args.contractAddress = none ∧
    args.minBlock = none ∧ args.maxBlock = none

/-! ## The query -/

/-- mirrors crates/api/src/schema.rs:83-117 -/
def selectText : String := "SELECT
                block_number,
                block_hash,
                txn_hash,
                log_index,
                contract_address,
                from_address,
                to_address,
                value::text AS value,
                timestamp
             FROM (
                SELECT
                    block_number,
                    block_hash,
                    txn_hash,
                    log_index,
                    contract_address,
                    from_address,
                    to_address,
                    value,
                    timestamp
                FROM erc20_transfers
                UNION ALL
                SELECT
                    block_number,
                    block_hash,
                    txn_hash,
                    log_index,
                    contract_address,
                    from_address,
                    to_address,
                    value,
                    timestamp
                FROM hot_erc20_transfers
             ) AS combined_transfers"

/-- One `if let` block: `filters.push(sql).push_bind(value)`. -/
def Separated.pushFilter (filters : Separated) (clause : String × Option Sql.Value) : Separated :=
  match clause.2 with
  | none => filters
  | some v => (filters.push clause.1).pushBind v

/-- The two shapes of a bound value: `Vec<u8>` and `i64`. -/
def bytesValue (b : Option Bytes) : Option Sql.Value := b.map .bytea

def i64Value (i : Option Int64) : Option Sql.Value := i.map fun i => .int i.toInt

namespace TransferFilter

/-- mirrors crates/api/src/schema.rs:120-124 -/
def hasFilters (f : TransferFilter) : Bool :=
  f.fromAddress.isSome || f.toAddress.isSome || f.contractAddress.isSome || f.minBlock.isSome ||
    f.maxBlock.isSome

/-- The five filters in order: the text pushed and the value bound after it.
mirrors crates/api/src/schema.rs:130-151 -/
def clauses (f : TransferFilter) : List (String × Option Sql.Value) :=
  [("from_address = ", bytesValue f.fromAddress), ("to_address = ", bytesValue f.toAddress),
    ("contract_address = ", bytesValue f.contractAddress),
    ("block_number >= ", i64Value f.minBlock), ("block_number <= ", i64Value f.maxBlock)]

end TransferFilter

/-- mirrors crates/api/src/schema.rs:82-152 -/
def whereQuery (f : TransferFilter) : QueryBuilder :=
  if f.hasFilters then
    (f.clauses.foldl Separated.pushFilter
      (((QueryBuilder.new selectText).push " WHERE ").separated " AND ")).queryBuilder
  else .new selectText

/-- mirrors crates/api/src/schema.rs:82-156 -/
def transfersQuery (f : TransferFilter) (limit offset : Int64) : QueryBuilder :=
  ((((whereQuery f).push " ORDER BY block_number DESC, log_index DESC").push
    " LIMIT ").pushBind (.int limit.toInt)).push " OFFSET " |>.pushBind (.int offset.toInt)

/-- The statement `erc20_transfers` sends, or the error it answers with.
mirrors crates/api/src/schema.rs:66-156 -/
def erc20Transfers (addressFromStr : String → Option Bytes) (args : Erc20TransfersArgs) :
    Except String QueryBuilder :=
  (args.validate addressFromStr).map fun a => transfersQuery a.1 a.2.1 a.2.2

/-! ## Accepted requests -/

theorem TransferFilter.hasFilters_eq_false {f : TransferFilter} :
    f.hasFilters = false ↔ f.fromAddress = none ∧ f.toAddress = none ∧ f.contractAddress = none ∧
      f.minBlock = none ∧ f.maxBlock = none := by
  simp only [hasFilters, Bool.or_eq_false_iff, Option.isSome_eq_false_iff,
    Option.isNone_iff_eq_none, and_assoc]

theorem mapM_ok {α β : Type} {g : α → Except String β} {o : Option α} {o' : Option β}
    (h : o.mapM g = .ok o') : o' = none ↔ o = none := by
  cases o with
  | none =>
    cases h
    simp
  | some a =>
    rw [Option.mapM_some] at h
    cases hg : g a with
    | error e => rw [hg] at h; cases h
    | ok b => rw [hg] at h; cases h; simp

/-- What an accepted request gives: the filters it supplies, and its page. -/
theorem validate_ok {addressFromStr : String → Option Bytes} {args : Erc20TransfersArgs}
    {f : TransferFilter} {limit offset : Int64}
    (h : args.validate addressFromStr = .ok (f, limit, offset)) :
    (f.hasFilters = false ↔ args.NoFilter) ∧ normalizeLimit args.limit = .ok limit ∧
      normalizeOffset args.offset = .ok offset := by
  simp only [Erc20TransfersArgs.validate, bind_ok, pure, Except.pure, Except.ok.injEq,
    Prod.mk.injEq] at h
  obtain ⟨_, -, a, ha, b, hb, c, hc, l, hl, o, ho, hf, hl', ho'⟩ := h
  subst hf hl' ho'
  refine ⟨?_, hl, ho⟩
  simp only [TransferFilter.hasFilters_eq_false, mapM_ok ha, mapM_ok hb, mapM_ok hc,
    Erc20TransfersArgs.NoFilter]

/-! ## The text with a filter -/

theorem Separated.extends_pushFilters (cs : List (String × Option Sql.Value)) (s : Separated) :
    s.queryBuilder.Extends (cs.foldl Separated.pushFilter s).queryBuilder := by
  induction cs generalizing s with
  | nil => exact ⟨"", String.append_empty.symm⟩
  | cons c cs ih =>
    have hc : s.queryBuilder.Extends (s.pushFilter c).queryBuilder := by
      unfold pushFilter
      split
      · exact ⟨"", String.append_empty.symm⟩
      · exact (s.extends_push c.1).trans (Separated.extends_pushBind _ _)
    exact hc.trans (ih _)

/-- After the text of the first supplied filter stands the separator. -/
theorem Separated.pushFilters_first {cs : List (String × Option Sql.Value)}
    (h : cs.any (fun c => c.2.isSome) = true) (q : QueryBuilder) (separator : String) :
    ∃ c ∈ cs, ∃ rest, (cs.foldl Separated.pushFilter (q.separated separator)).queryBuilder.query =
      q.query ++ c.1 ++ separator ++ rest := by
  induction cs with
  | nil => cases h
  | cons c cs ih =>
    obtain ⟨sql, value⟩ := c
    cases value with
    | none =>
      obtain ⟨c, hc, hrest⟩ := ih h
      exact ⟨c, List.mem_cons_of_mem _ hc, hrest⟩
    | some v =>
      obtain ⟨rest, hrest⟩ := extends_pushFilters cs
        ((q.separated separator).pushFilter (sql, some v))
      refine ⟨(sql, some v), List.mem_cons_self, "$" ++ toString (q.arguments.length + 1) ++ rest, ?_⟩
      rw [List.foldl_cons, hrest]
      simp only [pushFilter, push, pushBind, separate, QueryBuilder.separated, QueryBuilder.push,
        QueryBuilder.pushBind, Bool.false_eq_true, if_false, if_true, String.append_assoc]

theorem TransferFilter.hasFilters_eq (f : TransferFilter) :
    f.hasFilters = f.clauses.any fun c => c.2.isSome := by
  simp [hasFilters, clauses, bytesValue, i64Value, Bool.or_assoc]

theorem whereQuery_extends (f : TransferFilter) (limit offset : Int64) :
    (whereQuery f).Extends (transfersQuery f limit offset) :=
  ((((QueryBuilder.extends_push _ _).trans (QueryBuilder.extends_push _ _)).trans
    (QueryBuilder.extends_pushBind _ _)).trans (QueryBuilder.extends_push _ _)).trans
    (QueryBuilder.extends_pushBind _ _)

theorem query_of_filter {f : TransferFilter} (hf : f.hasFilters = true) (limit offset : Int64) :
    ∃ c ∈ f.clauses, ∃ rest, (transfersQuery f limit offset).query =
      selectText ++ " WHERE " ++ c.1 ++ " AND " ++ rest := by
  have hany : f.clauses.any (fun c => c.2.isSome) = true := f.hasFilters_eq ▸ hf
  obtain ⟨c, hc, rest, hrest⟩ := Separated.pushFilters_first hany
    ((QueryBuilder.new selectText).push " WHERE ") " AND "
  obtain ⟨more, hmore⟩ := whereQuery_extends f limit offset
  refine ⟨c, hc, rest ++ more, ?_⟩
  rw [hmore, whereQuery, if_pos hf, hrest, String.append_assoc]
  rfl

end EthIndexer.L5
