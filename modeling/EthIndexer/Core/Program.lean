/-!
# Programs over a database

A `Program` makes calls one after the other and stops at the first error.
`fails k` is the error of the `k`-th call, if that call fails, and it is any
function: what holds for all `fails` holds for a failure at any position.

A `Session` has the committed state and the state the open transaction works on;
an error inside a transaction drops the latter. Two ghosts record the committed
state after each call, which is all another connection can see, and the
statements issued. A statement that the client library refuses (`refuse`) is
issued and never reaches the database.

* `Computes p f`: where it succeeds, `p` is the function `f` on the working
  state, and it leaves the committed state alone. Bodies of transactions.
* `Reads p f`: the same for what is read of the committed state.
* `Atomic p R`: an error leaves the committed state, a success relates it by `R`,
  and what is seen in between is the state before or the state after.
* `Completes p f`: where no call fails, `p` succeeds, with `f` of the working state.
* `Ends p f`: where no call fails, `p` ends as `f` says of the committed state, with
  a result or, if it is `none`, with an error.
* `Raises p P`: an error that is not one of a call satisfies `P`.
* `Issues p P`: every statement that any run of `p` issues satisfies `P`.
* `Tries p q`: where no call fails, `p` issues `q`.
* `Fails p`: `p` ends with an error, whichever calls fail.
* `Script p qs`: `p` issues `qs`, in this order, up to the first call that fails.

Each has a rule for the operations and for `bind`; `Computes.transaction` makes
a transaction atomic.
-/
namespace EthIndexer

structure Session (D Q : Type) where
  /-- the committed state -/
  db : D
  /-- the state the open transaction works on -/
  work : D
  calls : Nat
  /-- ghost: the committed state after each call -/
  seen : List D
  /-- ghost: the statements issued -/
  issued : List Q

def Session.start {D Q : Type} (db : D) : Session D Q := ⟨db, db, 0, [], []⟩

/-- The session after one more call. -/
def Session.called {D Q : Type} (s : Session D Q) (q : Q) : Session D Q :=
  { s with calls := s.calls + 1, seen := s.seen ++ [s.db], issued := s.issued ++ [q] }

structure Program (D Q ε α : Type) where
  run : (Nat → Option ε) → Session D Q → Except ε α × Session D Q

namespace Program
variable {D Q ε α β : Type}

/-- The `?` operator: an error ends the program in the session it occurred in. -/
instance : Monad (Program D Q ε) where
  pure a := ⟨fun _ s => (.ok a, s)⟩
  bind p k := ⟨fun fails s => match p.run fails s with
    | (.ok a, s') => (k a).run fails s'
    | (.error e, s') => (.error e, s')⟩

/-! ## Operations -/

def ofExcept (x : Except ε α) : Program D Q ε α := ⟨fun _ s => (x, s)⟩

def call (q : Q) : Program D Q ε Unit := ⟨fun fails s =>
  match fails s.calls with
  | some e => (.error e, s.called q)
  | none => (.ok (), s.called q)⟩

def readDb (f : D → α) : Program D Q ε α := ⟨fun _ s => (.ok (f s.db), s)⟩

def onWork (effect : D → Except ε (α × D)) : Program D Q ε α := ⟨fun _ s =>
  match effect s.work with
  | .ok (a, d) => (.ok a, { s with work := d })
  | .error e => (.error e, s)⟩

def takeWork : Program D Q ε Unit := ⟨fun _ s => (.ok (), { s with work := s.db })⟩

/-- A query on a connection of its own. -/
def select (q : Q) (f : D → α) : Program D Q ε α := do
  call q
  readDb f

/-- A statement that does not get as far as the database. -/
def refuse (q : Q) (e : ε) : Program D Q ε α := ⟨fun _ s =>
  (.error e, { s with issued := s.issued ++ [q] })⟩

/-- A statement of the open transaction. -/
def execute (q : Q) (effect : D → Except ε (α × D)) : Program D Q ε α := do
  call q
  onWork effect

/-- `COMMIT` takes effect or fails. -/
def commit (q : Q) : Program D Q ε Unit := ⟨fun fails s =>
  match fails s.calls with
  | some e => (.error e, s.called q)
  | none => (.ok (), { s with db := s.work }.called q)⟩

/-- `BEGIN` and the body on a working state of its own. -/
def opened (start : Q) (body : Program D Q ε α) : Program D Q ε α := do
  call start
  takeWork
  body

/-- An error drops the transaction with its work. -/
def transaction (start stop : Q) (body : Program D Q ε α) : Program D Q ε α := ⟨fun fails s =>
  match (do let a ← opened start body; commit stop; pure a : Program D Q ε α).run fails s with
  | (.ok a, s') => (.ok a, s')
  | (.error e, s') => (.error e, { s' with work := s'.db })⟩

theorem run_bind (p : Program D Q ε α) (k : α → Program D Q ε β) (fails : Nat → Option ε)
    (s : Session D Q) : (p >>= k).run fails s = match p.run fails s with
      | (.ok a, s') => (k a).run fails s'
      | (.error e, s') => (.error e, s') := rfl

@[simp] theorem ofExcept_ok_bind (a : α) (k : α → Program D Q ε β) :
    (ofExcept (.ok a) >>= k : Program D Q ε β) = k a := rfl

/-- A `bind` ends where its first part fails, or where its second part ends. -/
theorem bind_cases (p : Program D Q ε α) (k : α → Program D Q ε β) (fails : Nat → Option ε)
    (s : Session D Q) :
    (∃ e, p.run fails s = (.error e, (p.run fails s).2) ∧
      (p >>= k).run fails s = (.error e, (p.run fails s).2)) ∨
    (∃ a, p.run fails s = (.ok a, (p.run fails s).2) ∧
      (p >>= k).run fails s = (k a).run fails (p.run fails s).2) := by
  rw [run_bind]
  obtain ⟨r, s'⟩ := p.run fails s
  cases r with
  | error e => exact .inl ⟨e, rfl, rfl⟩
  | ok a => exact .inr ⟨a, rfl, rfl⟩

/-! ## Programs that leave the committed state alone -/

structure Quiet (p : Program D Q ε α) : Prop where
  db : ∀ fails s, (p.run fails s).2.db = s.db
  seen : ∀ fails s, ∃ n, (p.run fails s).2.seen = s.seen ++ List.replicate n s.db

theorem Quiet.of_session {p : Program D Q ε α}
    (h : ∀ fails s, (p.run fails s).2.db = s.db ∧ (p.run fails s).2.seen = s.seen) : Quiet p :=
  ⟨fun fails s => (h fails s).1, fun fails s => ⟨0, by simp [(h fails s).2]⟩⟩

protected theorem Quiet.pure (a : α) : Quiet (pure a : Program D Q ε α) :=
  .of_session fun _ _ => ⟨rfl, rfl⟩

theorem Quiet.ofExcept (x : Except ε α) : Quiet (ofExcept x : Program D Q ε α) :=
  .of_session fun _ _ => ⟨rfl, rfl⟩

theorem Quiet.readDb (f : D → α) : Quiet (readDb f : Program D Q ε α) :=
  .of_session fun _ _ => ⟨rfl, rfl⟩

theorem Quiet.takeWork : Quiet (takeWork : Program D Q ε Unit) :=
  .of_session fun _ _ => ⟨rfl, rfl⟩

theorem Quiet.onWork (effect : D → Except ε (α × D)) :
    Quiet (onWork effect : Program D Q ε α) := by
  refine .of_session fun fails s => ?_
  simp only [Program.onWork]
  split <;> exact ⟨rfl, rfl⟩

theorem Quiet.refuse (q : Q) (e : ε) : Quiet (refuse q e : Program D Q ε α) :=
  .of_session fun _ _ => ⟨rfl, rfl⟩

theorem Quiet.call (q : Q) : Quiet (call q : Program D Q ε Unit) where
  db fails s := by
    simp only [Program.call]
    split <;> rfl
  seen fails s := by
    refine ⟨1, ?_⟩
    simp only [Program.call]
    split <;> rfl

theorem Quiet.bind {p : Program D Q ε α} {k : α → Program D Q ε β} (hp : Quiet p)
    (hk : ∀ a, Quiet (k a)) : Quiet (p >>= k) where
  db fails s := by
    rcases bind_cases p k fails s with ⟨e, -, h⟩ | ⟨a, -, h⟩
    · rw [h]; exact hp.db fails s
    · rw [h, (hk a).db, hp.db]
  seen fails s := by
    obtain ⟨n, hn⟩ := hp.seen fails s
    rcases bind_cases p k fails s with ⟨e, -, h⟩ | ⟨a, -, h⟩
    · exact ⟨n, by rw [h]; exact hn⟩
    · obtain ⟨m, hm⟩ := (hk a).seen fails (p.run fails s).2
      refine ⟨n + m, ?_⟩
      rw [h, hm, hn, hp.db, List.append_assoc, List.replicate_append_replicate]

theorem Quiet.select (q : Q) (f : D → α) : Quiet (select q f : Program D Q ε α) :=
  (Quiet.call q).bind fun _ => .readDb f

/-! ## What a program computes -/

/-- Where `p` succeeds, it is `f` on the working state. -/
structure Computes (p : Program D Q ε α) (f : D → α × D) : Prop extends Quiet p where
  result : ∀ fails s a, (p.run fails s).1 = .ok a → (a, (p.run fails s).2.work) = f s.work

/-- Where `p` succeeds, it returns `f` of the committed state. -/
structure Reads (p : Program D Q ε α) (f : D → α) : Prop extends Quiet p where
  result : ∀ fails s a, (p.run fails s).1 = .ok a → a = f s.db

theorem Computes.congr {p : Program D Q ε α} {f g : D → α × D} (h : Computes p f)
    (he : ∀ d, f d = g d) : Computes p g :=
  (funext he : f = g) ▸ h

protected theorem Computes.pure (a : α) : Computes (pure a : Program D Q ε α) fun d => (a, d) where
  toQuiet := .pure a
  result fails s b h := by cases h; rfl

theorem Computes.error (e : ε) (f : D → α × D) :
    Computes (ofExcept (.error e) : Program D Q ε α) f where
  toQuiet := .ofExcept _
  result _ _ _ h := by cases h

theorem Computes.refuse (q : Q) (e : ε) (f : D → α × D) :
    Computes (refuse q e : Program D Q ε α) f where
  toQuiet := .refuse q e
  result _ _ _ h := by cases h

theorem Computes.bind {p : Program D Q ε α} {k : α → Program D Q ε β} {f : D → α × D}
    {g : α → D → β × D} (hp : Computes p f) (hk : ∀ a, Computes (k a) (g a)) :
    Computes (p >>= k) fun d => g (f d).1 (f d).2 where
  toQuiet := hp.toQuiet.bind fun a => (hk a).toQuiet
  result fails s b hb := by
    rcases bind_cases p k fails s with ⟨e, -, h⟩ | ⟨a, ha, h⟩
    · rw [h] at hb; cases hb
    · rw [h] at hb ⊢
      have hf := hp.result fails s a (by rw [ha])
      rw [(hk a).result _ _ _ hb, ← hf]

theorem Computes.call (q : Q) : Computes (call q : Program D Q ε Unit) fun d => ((), d) where
  toQuiet := .call q
  result fails s a h := by
    simp only [Program.call] at h ⊢
    split at h <;> cases h
    rfl

theorem Computes.onWork {effect : D → Except ε (α × D)} {f : D → α × D}
    (h : ∀ d r, effect d = .ok r → r = f d) : Computes (onWork effect : Program D Q ε α) f where
  toQuiet := .onWork effect
  result fails s a ha := by
    simp only [Program.onWork] at ha ⊢
    split at ha
    · rename_i b d hd
      cases ha
      exact h _ _ hd
    · cases ha

theorem Computes.execute (q : Q) {effect : D → Except ε (α × D)} {f : D → α × D}
    (h : ∀ d r, effect d = .ok r → r = f d) :
    Computes (execute q effect : Program D Q ε α) f :=
  (Computes.call q).bind fun _ => .onWork h

theorem Reads.congr {p : Program D Q ε α} {f g : D → α} (h : Reads p f) (he : ∀ d, f d = g d) :
    Reads p g :=
  (funext he : f = g) ▸ h

protected theorem Reads.pure (a : α) : Reads (pure a : Program D Q ε α) fun _ => a where
  toQuiet := .pure a
  result fails s b h := by cases h; rfl

theorem Reads.select (q : Q) (f : D → α) : Reads (select q f : Program D Q ε α) f where
  toQuiet := .select q f
  result fails s a h := by
    rcases bind_cases (Program.call q) (fun _ => readDb f) fails s with ⟨e, -, hr⟩ | ⟨-, -, hr⟩
    · rw [Program.select, hr] at h; cases h
    · rw [Program.select, hr] at h
      cases h
      rw [(Quiet.call q).db]

theorem Reads.bind {p : Program D Q ε α} {k : α → Program D Q ε β} {f : D → α}
    {g : α → D → β} (hp : Reads p f) (hk : ∀ a, Reads (k a) (g a)) :
    Reads (p >>= k) fun d => g (f d) d where
  toQuiet := hp.toQuiet.bind fun a => (hk a).toQuiet
  result fails s b hb := by
    rcases bind_cases p k fails s with ⟨e, -, h⟩ | ⟨a, ha, h⟩
    · rw [h] at hb; cases hb
    · rw [h] at hb
      have hf := hp.result fails s a (by rw [ha])
      rw [(hk a).result _ _ _ hb, hp.db, ← hf]

/-- An error comes from what reads, or from what follows on what has been read. -/
theorem Reads.bind_error {p : Program D Q ε α} {k : α → Program D Q ε β} {f : D → α}
    (h : Reads p f) {fails : Nat → Option ε} {s : Session D Q} {e : ε}
    (he : ((p >>= k).run fails s).1 = .error e) :
    (p.run fails s).1 = .error e ∨ ∃ s', ((k (f s.db)).run fails s').1 = .error e := by
  rcases bind_cases p k fails s with ⟨e', ha, hr⟩ | ⟨a, ha, hr⟩
  · rw [hr] at he
    cases he
    exact .inl (by rw [ha])
  · rw [hr] at he
    rw [← h.result fails s a (by rw [ha])]
    exact .inr ⟨_, he⟩

/-! ## All or nothing -/

/-- An error leaves the committed state, a success relates it by `R`; in between
it is the state before, and from some call on the state after. -/
structure Atomic (p : Program D Q ε α) (R : D → α → D → Prop) : Prop where
  error : ∀ fails s e, (p.run fails s).1 = .error e → (p.run fails s).2.db = s.db
  ok : ∀ fails s a, (p.run fails s).1 = .ok a → R s.db a (p.run fails s).2.db
  seen : ∀ fails s, ∃ n m, (p.run fails s).2.seen =
    s.seen ++ List.replicate n s.db ++ List.replicate m (p.run fails s).2.db

theorem Atomic.mono {p : Program D Q ε α} {R S : D → α → D → Prop} (h : Atomic p R)
    (hRS : ∀ d a d', R d a d' → S d a d') : Atomic p S where
  error := h.error
  ok fails s a ha := hRS _ _ _ (h.ok fails s a ha)
  seen := h.seen

/-- A program that leaves the committed state alone may come first. -/
theorem Quiet.atomic_bind {p : Program D Q ε α} {k : α → Program D Q ε β}
    {R : α → D → β → D → Prop} {P : D → α → Prop} (hp : Quiet p)
    (hP : ∀ fails s a, (p.run fails s).1 = .ok a → P s.db a) (hk : ∀ a, Atomic (k a) (R a)) :
    Atomic (p >>= k) fun d b d' => ∃ a, P d a ∧ R a d b d' where
  error fails s e he := by
    rcases bind_cases p k fails s with ⟨e', -, h⟩ | ⟨a, -, h⟩
    · rw [h]; exact hp.db fails s
    · rw [h] at he ⊢
      rw [(hk a).error _ _ _ he, hp.db]
  ok fails s b hb := by
    rcases bind_cases p k fails s with ⟨e', -, h⟩ | ⟨a, ha, h⟩
    · rw [h] at hb; cases hb
    · rw [h] at hb ⊢
      have hR := (hk a).ok _ _ _ hb
      rw [hp.db] at hR
      exact ⟨a, hP fails s a (by rw [ha]), hR⟩
  seen fails s := by
    obtain ⟨n, hn⟩ := hp.seen fails s
    rcases bind_cases p k fails s with ⟨e', -, h⟩ | ⟨a, -, h⟩
    · exact ⟨n, 0, by rw [h, hn, List.replicate_zero, List.append_nil]⟩
    · obtain ⟨m, j, hm⟩ := (hk a).seen fails (p.run fails s).2
      refine ⟨n + m, j, ?_⟩
      rw [h, hm, hn, hp.db, List.append_assoc s.seen, List.replicate_append_replicate]

/-- What comes after only computes the result. -/
theorem Atomic.map {p : Program D Q ε α} {R : D → α → D → Prop} (h : Atomic p R) (g : α → β) :
    Atomic (do let a ← p; pure (g a)) fun d b d' => ∃ a, b = g a ∧ R d a d' where
  error fails s e he := by
    rcases bind_cases p (fun a => pure (g a)) fails s with ⟨e', ha, hb⟩ | ⟨a, -, hb⟩
    · rw [hb]; exact h.error fails s e' (by rw [ha])
    · rw [hb] at he; cases he
  ok fails s b hb := by
    rcases bind_cases p (fun a => pure (g a)) fails s with ⟨e', -, hr⟩ | ⟨a, ha, hr⟩
    · rw [hr] at hb; cases hb
    · rw [hr] at hb ⊢
      cases hb
      exact ⟨a, rfl, h.ok fails s a (by rw [ha])⟩
  seen fails s := by
    rcases bind_cases p (fun a => pure (g a)) fails s with ⟨e', -, hr⟩ | ⟨a, -, hr⟩ <;>
      · rw [hr]; exact h.seen fails s

/-! ## Transactions -/

theorem Quiet.opened {body : Program D Q ε α} (start : Q) (h : Quiet body) :
    Quiet (opened start body) :=
  (Quiet.call start).bind fun _ => Quiet.takeWork.bind fun _ => h

/-- The body works on a copy of the committed state. -/
theorem Computes.opened {body : Program D Q ε α} {f : D → α × D} (start : Q)
    (h : Computes body f) (fails : Nat → Option ε) (s : Session D Q) (a : α)
    (ha : ((opened start body).run fails s).1 = .ok a) :
    (a, ((opened start body).run fails s).2.work) = f s.db := by
  unfold Program.opened at ha ⊢
  rcases bind_cases (Program.call start) (fun _ => do Program.takeWork; body) fails s with
    ⟨e, -, hr⟩ | ⟨-, -, hr⟩
  · rw [hr] at ha; cases ha
  · rw [hr] at ha ⊢
    exact (h.result fails _ a ha).trans (congrArg f ((Quiet.call start).db fails s))

/-- A transaction ends in one of three ways. -/
theorem transaction_cases (start stop : Q) (body : Program D Q ε α) (fails : Nat → Option ε)
    (s : Session D Q) :
    (∃ e, ((transaction start stop body).run fails s).1 = .error e ∧
      ((transaction start stop body).run fails s).2 = { ((opened start body).run fails s).2 with
        work := ((opened start body).run fails s).2.db }) ∨
    (∃ e, ((transaction start stop body).run fails s).1 = .error e ∧
      ((transaction start stop body).run fails s).2 =
        { (((opened start body).run fails s).2).called stop with
          work := ((opened start body).run fails s).2.db }) ∨
    (∃ a, ((opened start body).run fails s).1 = .ok a ∧
      (transaction start stop body).run fails s =
        (.ok a, { ((opened start body).run fails s).2 with
          db := ((opened start body).run fails s).2.work }.called stop)) := by
  simp only [transaction, run_bind]
  obtain ⟨r, s'⟩ := (opened start body).run fails s
  cases r with
  | error e => exact .inl ⟨e, rfl, rfl⟩
  | ok a =>
    simp only [commit]
    cases fails s'.calls with
    | some e => exact .inr (.inl ⟨e, rfl, rfl⟩)
    | none => exact .inr (.inr ⟨a, rfl, rfl⟩)

/-- **A transaction is atomic.** -/
theorem Computes.transaction {body : Program D Q ε α} {f : D → α × D} (start stop : Q)
    (h : Computes body f) : Atomic (transaction start stop body) fun d a d' => (a, d') = f d where
  error fails s e he := by
    have hq := (h.toQuiet.opened start).db fails s
    rcases transaction_cases start stop body fails s with ⟨_, -, hs⟩ | ⟨_, -, hs⟩ | ⟨a, -, hs⟩
    · rw [hs]; exact hq
    · rw [hs]; exact hq
    · rw [hs] at he; cases he
  ok fails s a ha := by
    rcases transaction_cases start stop body fails s with ⟨_, he, -⟩ | ⟨_, he, -⟩ | ⟨b, hb, hs⟩
    · rw [he] at ha; cases ha
    · rw [he] at ha; cases ha
    · rw [hs] at ha ⊢
      cases ha
      exact h.opened start fails s a hb
  seen fails s := by
    obtain ⟨n, hn⟩ := (h.toQuiet.opened start).seen fails s
    have hq := (h.toQuiet.opened start).db fails s
    rcases transaction_cases start stop body fails s with ⟨_, -, hs⟩ | ⟨_, -, hs⟩ | ⟨a, -, hs⟩
    · exact ⟨n, 0, by rw [hs]; simp [hn]⟩
    · refine ⟨n, 1, ?_⟩
      rw [hs]
      simp [Session.called, hn]
    · refine ⟨n, 1, ?_⟩
      rw [hs]
      simp [Session.called, hn]

/-! ## Runs in which no call fails -/

def never : Nat → Option ε := fun _ => none

def Completes (p : Program D Q ε α) (f : D → α × D) : Prop :=
  ∀ s, (p.run never s).1 = .ok (f s.work).1 ∧ (p.run never s).2.work = (f s.work).2

protected theorem Completes.pure (a : α) :
    Completes (pure a : Program D Q ε α) fun d => (a, d) := fun _ => ⟨rfl, rfl⟩

theorem Completes.bind {p : Program D Q ε α} {k : α → Program D Q ε β} {f : D → α × D}
    {g : α → D → β × D} (hp : Completes p f) (hk : ∀ a, Completes (k a) (g a)) :
    Completes (p >>= k) fun d => g (f d).1 (f d).2 := by
  intro s
  obtain ⟨hr, hw⟩ := hp s
  rcases bind_cases p k never s with ⟨e, he, -⟩ | ⟨a, ha, h⟩
  · rw [he] at hr; cases hr
  · have hfa : a = (f s.work).1 := by rw [ha] at hr; exact Except.ok.inj hr
    dsimp only
    rw [h, ← hw, ← hfa]
    exact hk a _

theorem Completes.call (q : Q) : Completes (call q : Program D Q ε Unit) fun d => ((), d) :=
  fun _ => ⟨rfl, rfl⟩

theorem Completes.execute (q : Q) {effect : D → Except ε (α × D)} {f : D → α × D}
    (h : ∀ d, effect d = .ok (f d)) : Completes (execute q effect : Program D Q ε α) f := by
  have hw : Completes (onWork effect : Program D Q ε α) f := fun s => by
    simp only [onWork, h, and_self]
  exact (Completes.call q).bind fun _ => hw

/-- Where no call fails, `p` ends like this: its result, if it has one, and the
committed state. -/
def Ends (p : Program D Q ε α) (f : D → Option α × D) : Prop :=
  ∀ s, (p.run never s).1.toOption = (f s.db).1 ∧ (p.run never s).2.db = (f s.db).2

theorem Ends.of_never {p : Program D Q ε α} {f : D → Option α × D} (h : Ends p f)
    {fails : Nat → Option ε} (hnever : ∀ k, fails k = none) (s : Session D Q) :
    (p.run fails s).1.toOption = (f s.db).1 ∧ (p.run fails s).2.db = (f s.db).2 :=
  (funext hnever : fails = never) ▸ h s

theorem toOption_eq_some {x : Except ε α} {a : α} : x.toOption = some a ↔ x = .ok a := by
  cases x with
  | error e => exact ⟨fun h => (by cases h), fun h => (by cases h)⟩
  | ok b => exact ⟨fun h => congrArg Except.ok (Option.some.inj h), fun h => (by cases h; rfl)⟩

theorem Ends.congr {p : Program D Q ε α} {f g : D → Option α × D} (h : Ends p f)
    (he : ∀ d, f d = g d) : Ends p g :=
  (funext he : f = g) ▸ h

protected theorem Ends.pure (a : α) : Ends (pure a : Program D Q ε α) fun d => (some a, d) :=
  fun _ => ⟨rfl, rfl⟩

theorem Ends.ofExcept (x : Except ε α) :
    Ends (ofExcept x : Program D Q ε α) fun d => (x.toOption, d) := fun _ => ⟨rfl, rfl⟩

theorem Ends.select (q : Q) (f : D → α) :
    Ends (select q f : Program D Q ε α) fun d => (some (f d), d) := fun _ => ⟨rfl, rfl⟩

theorem Ends.bind {p : Program D Q ε α} {k : α → Program D Q ε β} {f : D → Option α × D}
    {g : α → D → Option β × D} (hp : Ends p f) (hk : ∀ a, Ends (k a) (g a)) :
    Ends (p >>= k) fun d => (f d).1.elim (none, (f d).2) fun a => g a (f d).2 := by
  intro s
  obtain ⟨hr, hd⟩ := hp s
  dsimp only
  rcases bind_cases p k never s with ⟨e, he, h⟩ | ⟨a, ha, h⟩
  · rw [he] at hr
    rw [h, ← hr]
    exact ⟨rfl, hd⟩
  · rw [ha] at hr
    rw [h, ← hr, ← hd]
    exact hk a _

/-- What always fails, and leaves the committed state then. -/
theorem Ends.of_fails {p : Program D Q ε α} {R : D → α → D → Prop} (hp : Atomic p R)
    (hf : ∀ s, ∃ e, (p.run never s).1 = .error e) : Ends p fun d => (none, d) := by
  intro s
  obtain ⟨e, he⟩ := hf s
  exact ⟨by rw [he]; rfl, hp.error never s e he⟩

/-! ## Errors -/

/-- Where the calls that fail have errors in `P`, so has the program. -/
def Raises (p : Program D Q ε α) (P : ε → Prop) : Prop :=
  ∀ fails s e, (∀ k e', fails k = some e' → P e') → (p.run fails s).1 = .error e → P e

section
variable {P : ε → Prop}

protected theorem Raises.pure (a : α) : Raises (pure a : Program D Q ε α) P :=
  fun _ _ _ _ h => by cases h

theorem Raises.refuse {q : Q} {e : ε} (h : P e) : Raises (refuse q e : Program D Q ε α) P :=
  fun _ _ _ _ he => by cases he; exact h

theorem Raises.call (q : Q) : Raises (call q : Program D Q ε Unit) P := by
  intro fails s e hP he
  simp only [Program.call] at he
  split at he <;> cases he
  rename_i hk
  exact hP _ _ hk

theorem Raises.onWork {effect : D → Except ε (α × D)} (h : ∀ d e, effect d = .error e → P e) :
    Raises (onWork effect : Program D Q ε α) P := by
  intro fails s e _ he
  simp only [Program.onWork] at he
  split at he <;> cases he
  rename_i hd
  exact h _ _ hd

theorem Raises.bind {p : Program D Q ε α} {k : α → Program D Q ε β} (hp : Raises p P)
    (hk : ∀ a, Raises (k a) P) : Raises (p >>= k) P := by
  intro fails s e hP he
  rcases bind_cases p k fails s with ⟨e', ha, h⟩ | ⟨a, -, h⟩
  · rw [h] at he
    cases he
    exact hp fails s e hP (by rw [ha])
  · rw [h] at he
    exact hk a fails _ e hP he

theorem Raises.select (q : Q) (f : D → α) : Raises (select q f : Program D Q ε α) P :=
  (Raises.call q).bind fun _ _ _ _ _ h => by cases h

theorem Raises.execute (q : Q) {effect : D → Except ε (α × D)}
    (h : ∀ d e, effect d = .error e → P e) : Raises (execute q effect : Program D Q ε α) P :=
  (Raises.call q).bind fun _ => .onWork h

theorem Raises.transaction {body : Program D Q ε α} (start stop : Q) (h : Raises body P) :
    Raises (transaction start stop body) P := by
  have hcommit : Raises (commit stop : Program D Q ε Unit) P := by
    intro fails s e hP he
    simp only [commit] at he
    split at he <;> cases he
    rename_i hk
    exact hP _ _ hk
  have hall : Raises (do let a ← opened start body; commit stop; pure a : Program D Q ε α) P :=
    ((Raises.call start).bind fun _ => Raises.bind (fun _ _ _ _ h => by cases h) fun _ => h).bind
      fun a => hcommit.bind fun _ => .pure a
  intro fails s e hP he
  refine hall fails s e hP ?_
  simp only [Program.transaction] at he
  split at he <;> cases he
  rename_i hr
  rw [hr]

end

/-- What reads and has no error of its own reads to its end. -/
theorem Reads.ends {p : Program D Q ε α} {f : D → α} (h : Reads p f)
    (hr : Raises p fun _ => False) : Ends p fun d => (some (f d), d) := by
  intro s
  cases ha : (p.run never s).1 with
  | error e => exact (hr never s e (fun _ _ h => by cases h) ha).elim
  | ok a => exact ⟨congrArg some (h.result never s a ha), h.db never s⟩

/-- What is atomic and has no error of its own succeeds. -/
theorem Atomic.ends {p : Program D Q ε α} {R : D → α → D → Prop} {f : D → Option α × D}
    (h : Atomic p R) (hr : Raises p fun _ => False)
    (hf : ∀ d a d', R d a d' → f d = (some a, d')) : Ends p f := by
  intro s
  cases ha : (p.run never s).1 with
  | error e => exact (hr never s e (fun _ _ h => by cases h) ha).elim
  | ok a =>
    rw [hf _ _ _ (h.ok never s a ha)]
    exact ⟨rfl, rfl⟩

/-! ## Statements issued -/

def Issues (p : Program D Q ε α) (P : Q → Prop) : Prop :=
  ∀ fails s, ∀ q ∈ (p.run fails s).2.issued, q ∈ s.issued ∨ P q

theorem Issues.of_session {p : Program D Q ε α} {P : Q → Prop}
    (h : ∀ fails s, (p.run fails s).2.issued = s.issued) : Issues p P :=
  fun fails s q hq => .inl (by rwa [h fails s] at hq)

protected theorem Issues.pure {P : Q → Prop} (a : α) : Issues (pure a : Program D Q ε α) P :=
  .of_session fun _ _ => rfl

theorem Issues.bind {p : Program D Q ε α} {k : α → Program D Q ε β} {P : Q → Prop}
    (hp : Issues p P) (hk : ∀ a, Issues (k a) P) : Issues (p >>= k) P := by
  intro fails s q hq
  rcases bind_cases p k fails s with ⟨e, -, h⟩ | ⟨a, -, h⟩
  · rw [h] at hq
    exact hp fails s q hq
  · rw [h] at hq
    exact (hk a fails _ q hq).elim (hp fails s q) .inr

theorem issued_snoc {P : Q → Prop} {issued : List Q} {q q' : Q} (hq : P q)
    (h : q' ∈ issued ++ [q]) : q' ∈ issued ∨ P q' := by
  rcases List.mem_append.mp h with h | h
  · exact .inl h
  · rw [List.mem_singleton.mp h]; exact .inr hq

theorem Issues.call {P : Q → Prop} {q : Q} (hq : P q) :
    Issues (call q : Program D Q ε Unit) P := by
  intro fails s q' h
  simp only [Program.call] at h
  split at h <;> exact issued_snoc hq h

theorem Issues.refuse {P : Q → Prop} {q : Q} (hq : P q) (e : ε) :
    Issues (refuse q e : Program D Q ε α) P :=
  fun _ _ _ h => issued_snoc hq h

theorem Issues.execute {P : Q → Prop} (q : Q) (hq : P q) (effect : D → Except ε (α × D)) :
    Issues (execute q effect : Program D Q ε α) P := by
  refine (Issues.call hq).bind fun _ => .of_session fun fails s => ?_
  simp only [onWork]
  split <;> rfl

theorem Issues.transaction {P : Q → Prop} {start stop : Q} {body : Program D Q ε α}
    (hstart : P start) (hstop : P stop) (h : Issues body P) :
    Issues (transaction start stop body) P := by
  have ho : Issues (opened start body) P :=
    (Issues.call hstart).bind fun _ => Issues.bind (.of_session fun _ _ => rfl) fun _ => h
  intro fails s q hq
  rcases transaction_cases start stop body fails s with ⟨_, -, hs⟩ | ⟨_, -, hs⟩ | ⟨_, -, hs⟩
  · rw [hs] at hq
    exact ho fails s q hq
  · rw [hs] at hq
    exact (issued_snoc hstop hq).elim (ho fails s q) .inr
  · rw [hs] at hq
    exact (issued_snoc hstop hq).elim (ho fails s q) .inr

/-! ## Programs that cannot succeed -/

def Fails (p : Program D Q ε α) : Prop := ∀ fails s, ∃ e, (p.run fails s).1 = .error e

theorem Fails.bind_left {p : Program D Q ε α} (h : Fails p) (k : α → Program D Q ε β) :
    Fails (p >>= k) := by
  intro fails s
  obtain ⟨e, he⟩ := h fails s
  rcases bind_cases p k fails s with ⟨e', -, hr⟩ | ⟨a, ha, -⟩
  · exact ⟨e', by rw [hr]⟩
  · rw [ha] at he; cases he

theorem Fails.bind_right (p : Program D Q ε α) {k : α → Program D Q ε β}
    (h : ∀ a, Fails (k a)) : Fails (p >>= k) := by
  intro fails s
  rcases bind_cases p k fails s with ⟨e, -, hr⟩ | ⟨a, -, hr⟩
  · exact ⟨e, by rw [hr]⟩
  · rw [hr]; exact h a fails _

theorem Fails.refuse (q : Q) (e : ε) : Fails (refuse q e : Program D Q ε α) :=
  fun _ _ => ⟨e, rfl⟩

theorem Fails.execute (q : Q) {effect : D → Except ε (α × D)}
    (h : ∀ d, ∃ e, effect d = .error e) : Fails (execute q effect : Program D Q ε α) := by
  refine Fails.bind_right _ fun _ fails s => ?_
  obtain ⟨e, he⟩ := h s.work
  exact ⟨e, by simp only [onWork, he]⟩

theorem Fails.transaction {body : Program D Q ε α} (start stop : Q) (h : Fails body) :
    Fails (transaction start stop body) := by
  have ho : Fails (opened start body) := .bind_right _ fun _ => .bind_right _ fun _ => h
  intro fails s
  obtain ⟨e, he⟩ := ho fails s
  rcases transaction_cases start stop body fails s with ⟨e', hr, -⟩ | ⟨e', hr, -⟩ | ⟨a, ha, -⟩
  · exact ⟨e', hr⟩
  · exact ⟨e', hr⟩
  · rw [ha] at he; cases he

/-- What fails otherwise succeeds only under the condition. -/
theorem Atomic.and_of_fails {p : Program D Q ε α} {R : D → α → D → Prop} {c : Prop}
    (h : Atomic p R) (hf : ¬ c → Fails p) : Atomic p fun d a d' => c ∧ R d a d' where
  error := h.error
  ok fails s a ha := by
    refine ⟨Classical.byContradiction fun hc => ?_, h.ok fails s a ha⟩
    obtain ⟨e, he⟩ := hf hc fails s
    rw [ha] at he
    cases he
  seen := h.seen

/-- Where the first part fails, the second issues nothing. -/
theorem Issues.bind_fails {p : Program D Q ε α} {P : Q → Prop} (hp : Issues p P) (hf : Fails p)
    (k : α → Program D Q ε β) : Issues (p >>= k) P := by
  intro fails s q hq
  obtain ⟨e, he⟩ := hf fails s
  rcases bind_cases p k fails s with ⟨_, -, h⟩ | ⟨a, ha, -⟩
  · rw [h] at hq
    exact hp fails s q hq
  · rw [ha] at he; cases he

/-- In a run in which no call fails. -/
def Tries (p : Program D Q ε α) (q : Q) : Prop := ∀ s, q ∈ (p.run never s).2.issued

theorem Tries.execute (q : Q) (effect : D → Except ε (α × D)) :
    Tries (execute q effect : Program D Q ε α) q := by
  intro s
  have hq : q ∈ (s.called q).issued := List.mem_append_right _ (List.mem_singleton.mpr rfl)
  simp only [Program.execute, run_bind, Program.call, never, onWork]
  cases effect (s.called q).work <;> exact hq

theorem Tries.refuse (q : Q) (e : ε) : Tries (refuse q e : Program D Q ε α) q :=
  fun _ => List.mem_append_right _ (List.mem_singleton.mpr rfl)

/-- What some run issues, every run may issue. -/
theorem Issues.of_tries {p : Program D Q ε α} {P : Q → Prop} {q : Q} (h : Issues p P)
    (hq : Tries p q) (db : D) : P q :=
  (h never (.start db) q (hq _)).resolve_left List.not_mem_nil

theorem Tries.bind_left {p : Program D Q ε α} {q : Q} (h : Tries p q) (hf : Fails p)
    (k : α → Program D Q ε β) : Tries (p >>= k) q := by
  intro s
  obtain ⟨e, he⟩ := hf never s
  rcases bind_cases p k never s with ⟨_, -, hr⟩ | ⟨a, ha, -⟩
  · rw [hr]; exact h s
  · rw [ha] at he; cases he

theorem Tries.bind_right {p : Program D Q ε α} {k : α → Program D Q ε β} {q : Q}
    {f : D → α × D} (hp : Completes p f) (h : ∀ a, Tries (k a) q) : Tries (p >>= k) q := by
  intro s
  have hr := (hp s).1
  rcases bind_cases p k never s with ⟨e, he, -⟩ | ⟨a, -, hk⟩
  · rw [he] at hr; cases hr
  · rw [hk]; exact h a _

theorem Tries.transaction {start stop q : Q} {body : Program D Q ε α} (h : Tries body q) :
    Tries (transaction start stop body) q := by
  intro s
  have ho : q ∈ ((opened start body).run never s).2.issued := h _
  rcases transaction_cases start stop body never s with ⟨_, -, hs⟩ | ⟨_, -, hs⟩ | ⟨_, -, hs⟩
  · rw [hs]; exact ho
  · rw [hs]; exact List.mem_append_left _ ho
  · rw [hs]; exact List.mem_append_left _ ho

/-! ## Programs that always issue the same statements -/

/-- Success issues all of `qs`; an error is that of a call that failed, and a first
part of `qs` has been issued. -/
structure Script (p : Program D Q ε α) (qs : List Q) : Prop where
  ok : ∀ fails s a, (p.run fails s).1 = .ok a → (p.run fails s).2.issued = s.issued ++ qs
  error : ∀ fails s e, (p.run fails s).1 = .error e → (∃ k, fails k = some e) ∧
    ∃ done, done <+: qs ∧ (p.run fails s).2.issued = s.issued ++ done

protected theorem Script.pure (a : α) : Script (pure a : Program D Q ε α) [] where
  ok _ s _ _ := (List.append_nil s.issued).symm
  error _ _ _ h := by cases h

theorem Script.call (q : Q) : Script (call q : Program D Q ε Unit) [q] where
  ok fails s a h := by
    simp only [Program.call] at h ⊢
    split at h <;> cases h
    rfl
  error fails s e h := by
    simp only [Program.call] at h ⊢
    split at h <;> cases h
    rename_i hk
    exact ⟨⟨s.calls, hk⟩, [q], List.prefix_rfl, rfl⟩

theorem Script.onWork {effect : D → Except ε (α × D)} {f : D → α × D}
    (h : ∀ d, effect d = .ok (f d)) : Script (onWork effect : Program D Q ε α) [] where
  ok fails s a _ := by simp only [Program.onWork, h, List.append_nil]
  error fails s e he := by simp only [Program.onWork, h] at he; cases he

theorem Script.bind {p : Program D Q ε α} {k : α → Program D Q ε β} {qs rs : List Q}
    (hp : Script p qs) (hk : ∀ a, Script (k a) rs) : Script (p >>= k) (qs ++ rs) where
  ok fails s b hb := by
    rcases bind_cases p k fails s with ⟨e, -, h⟩ | ⟨a, ha, h⟩
    · rw [h] at hb; cases hb
    · rw [h] at hb ⊢
      rw [(hk a).ok _ _ b hb, hp.ok fails s a (by rw [ha]), List.append_assoc]
  error fails s e he := by
    rcases bind_cases p k fails s with ⟨e', ha, h⟩ | ⟨a, ha, h⟩
    · rw [h] at he ⊢
      cases he
      obtain ⟨hf, done, hd, hi⟩ := hp.error fails s e (by rw [ha])
      exact ⟨hf, done, hd.trans (List.prefix_append _ _), hi⟩
    · rw [h] at he ⊢
      obtain ⟨hf, done, hd, hi⟩ := (hk a).error _ _ e he
      refine ⟨hf, qs ++ done, (List.prefix_append_right_inj qs).mpr hd, ?_⟩
      rw [hi, hp.ok fails s a (by rw [ha]), List.append_assoc]

theorem Script.execute (q : Q) {effect : D → Except ε (α × D)} {f : D → α × D}
    (h : ∀ d, effect d = .ok (f d)) : Script (execute q effect : Program D Q ε α) [q] :=
  (Script.call q).bind fun _ => .onWork h

end Program
end EthIndexer
