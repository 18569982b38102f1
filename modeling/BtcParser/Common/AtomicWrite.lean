import BtcParser.Library.Durable
import BtcParser.Library.Program

/-!
`common/atomic_write.py`: the replacement of a whole file.

`atomicReplace` is the list of the operations on the disk that a call performs, in order. An
`Attempt` says what they meet: the characters `mkstemp` chooses, what `write` writes, and which of
the steps raise an exception. The parent directory exists: `mkdir(parents=True, exist_ok=True)`
makes nothing then, and a directory that it had to make is not modelled.
-/

namespace BtcParser.AtomicWrite

open Durable

/-- A path: the directory, and the name in it. -/
structure FilePath where
  parent : List (List Char)
  name : List Char
  deriving DecidableEq

/-- What a call meets. -/
structure Attempt where
  /-- the characters of the temporary name that `mkstemp` chooses -/
  random : List Char
  /-- `mkdir` of the directory, which exists, does not raise -/
  prepared : Bool
  /-- `mkstemp` does not raise -/
  created : Bool
  /-- what `write` has written when it returns or raises, piece by piece -/
  chunks : List (List UInt8)
  /-- `write` does not raise -/
  written : Bool
  /-- nor do the flush of the file, `os.replace` and the flush of the directory -/
  flushed : Bool
  replaced : Bool
  dirFlushed : Bool

/-- The contents `write` produces. -/
def Attempt.contents (a : Attempt) : List UInt8 := a.chunks.flatten

/-- The temporary path. -/
def tmpPath (path : FilePath) (random : List Char) : FilePath :=
  ⟨path.parent, '.' :: (path.name ++ '.' :: (random ++ ['.', 't', 'm', 'p']))⟩

/-- An operation on paths. -/
abbrev PathOp := FileOp FilePath UInt8

/-- A program that performs operations. -/
abbrev Replacing := EStateM Unit (List PathOp)

/-- Performs an operation, or raises. -/
def perform (ok : Bool) (op : PathOp) : Replacing Unit :=
  if ok then modify (· ++ [op]) else throw ()

/-- The body of the `try`. -/
def replaceWith (path tmp : FilePath) (a : Attempt) : Replacing Unit := do
  a.chunks.forM fun bytes => perform true (.append tmp bytes)
  if a.written then pure () else throw ()
  perform a.flushed (.flush tmp)
  perform a.replaced (.rename tmp path)
  perform a.dirFlushed (.flushDir fun n => decide (n.parent = path.parent))

/-- `atomic_replace`. -/
def atomicReplace (path : FilePath) (a : Attempt) : Replacing Unit := do
  if a.prepared then pure () else throw ()
  let tmp := tmpPath path a.random
  perform a.created (.create tmp)
  tryCatch (replaceWith path tmp a) fun e => do
    perform true (.unlink tmp)
    throw e

/-- The operations of a call. -/
def ops (path : FilePath) (a : Attempt) : List PathOp :=
  match atomicReplace path a [] with
  | .ok _ l => l
  | .error _ l => l

/-- The call returns. -/
def returns (path : FilePath) (a : Attempt) : Bool :=
  (Program.finished (atomicReplace path a [])).isSome

/-! ### What it performs -/

/-- The operations behind the writes. -/
def closing (path tmp : FilePath) (a : Attempt) : List PathOp :=
  if a.written then
    if a.flushed then
      .flush tmp ::
        if a.replaced then
          .rename tmp path ::
            if a.dirFlushed then [.flushDir fun n => decide (n.parent = path.parent)]
            else [.unlink tmp]
        else [.unlink tmp]
    else [.unlink tmp]
  else [.unlink tmp]

lemma forM_append (tmp : FilePath) (chunks : List (List UInt8)) (l : List PathOp) :
    (chunks.forM fun bytes => perform true (.append tmp bytes)) l
      = .ok () (l ++ chunks.map (.append tmp)) := by
  induction chunks generalizing l with
  | nil => exact congrArg (EStateM.Result.ok ()) (List.append_nil l).symm
  | cons c cs ih =>
      have hcons : (c :: cs).forM (fun bytes => perform true (.append tmp bytes))
          = perform true (.append tmp c) >>= fun _ =>
            cs.forM fun bytes => perform true (.append tmp bytes) := rfl
      have hfirst : perform true (.append tmp c) l = .ok () (l ++ [.append tmp c]) := rfl
      rw [hcons, Program.bind_of_ok hfirst, ih, List.map_cons, List.append_assoc,
        List.singleton_append]

/-- Neither `mkdir` nor `mkstemp` raises. -/
def Attempt.begins (a : Attempt) : Bool := a.prepared && a.created

/-- A call that one of them ends. -/
lemma atomicReplace_raises (path : FilePath) {a : Attempt} (h : a.begins = false) :
    ops path a = [] ∧ returns path a = false := by
  have hrun : atomicReplace path a [] = .error () [] := by
    rw [Attempt.begins] at h
    rw [atomicReplace]
    cases hprepared : a.prepared with
    | false => rfl
    | true =>
        rw [hprepared, Bool.true_and] at h
        rw [h]
        rfl
  rw [ops, returns, hrun]
  exact ⟨rfl, rfl⟩

/-- A call that they do not end. -/
lemma atomicReplace_apply (path : FilePath) {a : Attempt} (h : a.begins = true) :
    ops path a = .create (tmpPath path a.random)
        :: (a.chunks.map (.append (tmpPath path a.random))
          ++ closing path (tmpPath path a.random) a)
      ∧ returns path a = (a.written && a.flushed && a.replaced && a.dirFlushed) := by
  have hrun := forM_append (tmpPath path a.random) a.chunks [.create (tmpPath path a.random)]
  have hbody : atomicReplace path a [] = tryCatch (replaceWith path (tmpPath path a.random) a)
      (fun e => do
        perform true (.unlink (tmpPath path a.random))
        throw e) [.create (tmpPath path a.random)] := by
    rw [Attempt.begins, Bool.and_eq_true] at h
    rw [atomicReplace, h.1, h.2]
    rfl
  have hbind : replaceWith path (tmpPath path a.random) a [.create (tmpPath path a.random)] = _ :=
    Program.bind_of_ok hrun _
  rcases a with ⟨random, prepared, created, chunks, written, flushed, replaced, dirFlushed⟩
  rw [ops, returns, hbody]
  have htry : ∀ x : Replacing Unit, ∀ f : Unit → Replacing Unit, ∀ l,
      tryCatch x f l = match x l with
        | .ok u l => .ok u l
        | .error e l => f e l := fun x f l => by
    show EStateM.tryCatch x f l = _
    rw [EStateM.tryCatch]
    cases x l <;> rfl
  rw [htry, hbind]
  cases written <;> cases flushed <;> cases replaced <;> cases dirFlushed <;>
    simp [perform, closing, Program.bind_apply, Program.finished]

end BtcParser.AtomicWrite
