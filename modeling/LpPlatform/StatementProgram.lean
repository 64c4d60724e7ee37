import LpPlatform.RowStore

/-!
# Programs that talk to a store one statement at a time

A program is the rest of a piece of code between two statements: its result,
an exception on its way out, or the next statement with what follows it. The
writes of a statement and the code after it depend on the view the store
gives when the statement runs and on an input drawn from outside: a fresh
identifier, the clock, the row an unordered query happens to return. Every
statement has a continuation for the error the store may raise instead.
-/

namespace LpPlatform.StatementProgram

open RowStore

/-- What the store shows to one statement. -/
structure View (δ : Type) where
  /-- Committed rows, as any other connection reads them. -/
  committed : δ
  /-- Rows the transaction of the session itself reads. -/
  own : δ
  /-- The next identity value of the store's sequence. -/
  seq : ℕ
  /-- The session that runs the statement. -/
  self : ℕ
  /-- Sessions whose process is still running. -/
  alive : ℕ → Bool

/-- The rest of a program, up to its next statement. -/
inductive Prog (δ ω ι ε α : Type) where
  /-- The program has returned. -/
  | done (result : α)
  /-- An exception that nothing has caught yet. -/
  | throw (error : ε)
  /-- Open a transaction, with a snapshot when it is serializable. -/
  | begin (serializable : Bool) (next : Prog δ ω ι ε α) (onError : ε → Prog δ ω ι ε α)
  /-- Run one statement: its writes, then the code that sees its result. -/
  | stmt (writes : View δ → ι → List ω) (next : View δ → ι → Prog δ ω ι ε α)
      (onError : ε → Prog δ ω ι ε α)
  /-- Commit the open transaction. -/
  | commit (next : Prog δ ω ι ε α) (onError : ε → Prog δ ω ι ε α)
  /-- Abandon the open transaction. -/
  | rollback (next : Prog δ ω ι ε α)

variable {δ ω κ ι ε α β : Type}

/-- Run a program, then the code that uses its result. -/
def Prog.bind (p : Prog δ ω ι ε α) (f : α → Prog δ ω ι ε β) : Prog δ ω ι ε β :=
  match p with
  | .done a => f a
  | .throw e => .throw e
  | .begin ser k err => .begin ser (k.bind f) fun e => (err e).bind f
  | .stmt ws k err => .stmt ws (fun v i => (k v i).bind f) fun e => (err e).bind f
  | .commit k err => .commit (k.bind f) fun e => (err e).bind f
  | .rollback k => .rollback (k.bind f)

/-- Run a program with a handler for its exceptions. -/
def Prog.tryCatch (p : Prog δ ω ι ε α) (h : ε → Prog δ ω ι ε α) : Prog δ ω ι ε α :=
  match p with
  | .done a => .done a
  | .throw e => h e
  | .begin ser k err => .begin ser (k.tryCatch h) fun e => (err e).tryCatch h
  | .stmt ws k err => .stmt ws (fun v i => (k v i).tryCatch h) fun e => (err e).tryCatch h
  | .commit k err => .commit (k.tryCatch h) fun e => (err e).tryCatch h
  | .rollback k => .rollback (k.tryCatch h)

instance : Monad (Prog δ ω ι ε) where
  pure := .done
  bind := .bind

@[simp] theorem pure_eq (a : α) : (pure a : Prog δ ω ι ε α) = .done a := rfl

@[simp] theorem bind_eq (p : Prog δ ω ι ε α) (f : α → Prog δ ω ι ε β) :
    (p >>= f) = p.bind f := rfl

/-- A query: no writes, and a result computed from the view. -/
def query (f : View δ → ι → α) : Prog δ ω ι ε α :=
  .stmt (fun _ _ => []) (fun v i => .done (f v i)) .throw

/-- A value drawn from outside the program. -/
def draw (f : ι → α) : Prog δ ω ι ε α := query fun _ i => f i

/-- A statement that writes and returns a result. -/
def exec (ws : View δ → ι → List ω) (f : View δ → ι → α) : Prog δ ω ι ε α :=
  .stmt ws (fun v i => .done (f v i)) .throw

/-- Run the body in a transaction: commit when it returns, roll back and pass
its exception on when it throws. -/
def transaction (serializable : Bool) (body : Prog δ ω ι ε α) : Prog δ ω ι ε α :=
  .begin serializable
    ((body.bind fun a => .commit (.done a) .throw).tryCatch fun e => .rollback (.throw e))
    .throw

/-- Unwrap a computed result, throwing its error. -/
def ofExcept : Except ε α → Prog δ ω ι ε α
  | .ok a => .done a
  | .error e => .throw e

/-- Run a program for every element of a list, in order. -/
def forEach (f : α → Prog δ ω ι ε Unit) : List α → Prog δ ω ι ε Unit
  | [] => .done ()
  | a :: as => (f a).bind fun _ => forEach f as

section Solo

variable (S : KeyedRows δ ω κ)

/-- Run a program alone from a store and a sequence value, without errors from
the store, drawing one input at each statement. The writes of the open
transaction are the fourth argument. The result keeps the store. -/
def Prog.solo (p : Prog δ ω ι ε α) (is : List ι) (d : δ) (seq : ℕ) (txn : Option (List ω)) :
    Option (Except ε α × δ × ℕ) :=
  match p with
  | .done a => some (.ok a, d, seq)
  | .throw e => some (.error e, d, seq)
  | .begin _ k _ =>
    match txn with
    | none => k.solo is d seq (some [])
    | some _ => none
  | .stmt ws k _ =>
    match is with
    | [] => none
    | i :: is =>
      let own := S.applyAll d (txn.getD [])
      let v : View δ := ⟨d, own, seq, 0, fun t => t = 0⟩
      let new := ws v i
      if S.validAll own new then
        match txn with
        | none => (k v i).solo is (S.applyAll d new) (seq + new.length) none
        | some held => (k v i).solo is d (seq + new.length) (some (held ++ new))
      else none
  | .commit k _ =>
    let held := txn.getD []
    k.solo is (S.applyAll d held) (seq + held.length) none
  | .rollback k => k.solo is d seq none

end Solo

end LpPlatform.StatementProgram
