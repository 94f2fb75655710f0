import Baloo.Store

/-!
# Posting iterators

The posting iterators of the query engine: vectors of ids, and nodes that intersect or unite other
iterators. The classes of the source are the constructors of one type, their virtual methods are
functions that dispatch on it, and a call returns the iterator as it stands afterwards.

Calls nest as deep as the iterators do, and two methods loop until the ids agree, so the methods take
fuel; `none` means that the fuel did not suffice. A loop of the source that starts over is a call of
the same method with the rest of the fuel.
-/

namespace Baloo

/-- `PostingIterator` and its subclasses. -/
inductive PostingIterator where
  /-- `VectorPostingIterator`: `m_values` and `m_pos` -/
  | vector (values : List DocId) (pos : ℤ)
  /-- `AndPostingIterator`: `m_iterators` and `m_docId` -/
  | and (iterators : List PostingIterator) (docId : DocId)
  /-- `OrPostingIterator`: `m_iterators`, `m_docId` and `m_nextId` -/
  | or (iterators : List PostingIterator) (docId nextId : DocId)

namespace PostingIterator

/-- `docId`. -/
def docId : PostingIterator → DocId
  | vector values pos =>
    if pos < 0 ∨ values.length ≤ pos then 0 else values.getD pos.toNat 0
  | and _ docId => docId
  | or _ docId _ => docId

/-- `VectorPostingIterator::next`. -/
def vectorNext (values : List DocId) (pos : ℤ) : PostingIterator × DocId :=
  if values.length - 1 ≤ pos then (vector [] values.length, 0)
  else (vector values (pos + 1), values.getD (pos + 1).toNat 0)

/-- `docId` becomes the lowest id unless the lowest id so far is lower; `0` is no id so far. -/
def lower (nextId docId : DocId) : DocId :=
  if docId < nextId ∨ nextId = 0 then docId else nextId

/-- The loop over the iterators in `AndPostingIterator::skipTo`: every iterator is moved to the bound
the iterators before it have set. The loop ends with the first `0`. -/
def skipAll (skipTo : PostingIterator → DocId → Option (PostingIterator × DocId)) :
    List PostingIterator → DocId → Option (List PostingIterator × DocId)
  | [], lower_bound => some ([], lower_bound)
  | iter :: iters, lower_bound =>
    (skipTo iter lower_bound).bind fun r =>
      if r.2 = 0 then some (r.1 :: iters, 0)
      else (skipAll skipTo iters r.2).map fun s => (r.1 :: s.1, s.2)

/-- The first loop in `OrPostingIterator::skipTo`: fast forward all iterators. -/
def fastForward (skipTo : PostingIterator → DocId → Option (PostingIterator × DocId)) (id : DocId) :
    List PostingIterator → DocId → Option (List PostingIterator × DocId)
  | [], nextId => some ([], nextId)
  | iter :: iters, nextId =>
    (skipTo iter id).bind fun r =>
      (fastForward skipTo id iters (if 0 < r.2 then lower nextId r.2 else nextId)).map fun s =>
        (r.1 :: s.1, s.2)

/-- The second loop in `OrPostingIterator::skipTo`: advance the iterators that stand at `docId` and
drop those that have reached their end. -/
def advance (next : PostingIterator → Option (PostingIterator × DocId)) (docId : DocId) :
    List PostingIterator → DocId → Option (List PostingIterator × DocId)
  | [], nextId => some ([], nextId)
  | iter :: iters, nextId =>
    (if iter.docId = docId then next iter else some (iter, iter.docId)).bind fun r =>
      if r.2 = 0 then advance next docId iters nextId
      else (advance next docId iters (lower nextId r.2)).map fun s => (r.1 :: s.1, s.2)

mutual

/-- `next`. -/
def next : ℕ → PostingIterator → Option (PostingIterator × DocId)
  | 0, _ => none
  | _ + 1, vector values pos => some (vectorNext values pos)
  | _ + 1, and [] _ => some (and [] 0, 0)
  | fuel + 1, and (iter :: iters) _ =>
    (next fuel iter).bind fun r => skipTo fuel (and (r.1 :: iters) r.2) r.2
  | fuel + 1, or iters docId nextId =>
    if nextId ≠ 0 then skipTo fuel (or iters docId nextId) nextId
    else some (or iters 0 0, 0)

/-- `skipTo`. -/
def skipTo : ℕ → PostingIterator → DocId → Option (PostingIterator × DocId)
  | 0, _, _ => none
  | fuel + 1, vector values pos, id =>
    -- the loop of the base class
    if (vector values pos).docId < id then
      (next fuel (vector values pos)).bind fun r =>
        if r.2 = 0 then some (r.1, 0) else skipTo fuel r.1 id
    else some (vector values pos, (vector values pos).docId)
  | _ + 1, and [] _, _ => some (and [] 0, 0)
  | fuel + 1, and (iter :: iters) docId, id =>
    (skipAll (skipTo fuel) (iter :: iters) id).bind fun r =>
      if r.2 = 0 then some (and r.1 0, 0)
      else if r.2 = id then some (and r.1 r.2, r.2)
      else skipTo fuel (and r.1 docId) r.2
  | fuel + 1, or iters docId nextId, id =>
    if id ≤ docId then some (or iters docId nextId, docId)
    else if nextId = 0 then some (or iters 0 0, 0)
    else
      (if nextId < id then fastForward (skipTo fuel) id iters 0 else some (iters, nextId)).bind
        fun r =>
          if r.2 = 0 then some (or r.1 0 0, 0)
          else
            (advance (next fuel) r.2 r.1 0).map fun s => (or s.1 r.2 s.2, r.2)

end

/-- `AndPostingIterator::AndPostingIterator`; `none` is a null pointer. -/
def makeAnd (iterators : List (Option PostingIterator)) : PostingIterator :=
  if iterators.any Option.isNone then and [] 0 else and (iterators.filterMap id) 0

/-- The loop of `OrPostingIterator::OrPostingIterator`. -/
def startAll (next : PostingIterator → Option (PostingIterator × DocId)) :
    List PostingIterator → DocId → Option (List PostingIterator × DocId)
  | [], nextId => some ([], nextId)
  | iter :: iters, nextId =>
    (next iter).bind fun r =>
      (startAll next iters (if r.2 ≠ 0 then lower nextId r.2 else nextId)).map fun s =>
        (r.1 :: s.1, s.2)

/-- `OrPostingIterator::OrPostingIterator`. -/
def makeOr (fuel : ℕ) (iterators : List (Option PostingIterator)) : Option PostingIterator :=
  (startAll (next fuel) (iterators.filterMap id) 0).map fun s => or s.1 0 s.2

end PostingIterator

/-- What iterators are built from. -/
inductive PostingTree where
  /-- a null pointer -/
  | null
  /-- a vector of ids -/
  | vector (values : List DocId)
  /-- an intersection -/
  | and (children : List PostingTree)
  /-- a union -/
  | or (children : List PostingTree)

/-- Construct the iterator of a tree; the outer `none` means that the fuel did not suffice. -/
def PostingTree.build : ℕ → PostingTree → Option (Option PostingIterator)
  | 0, _ => none
  | _ + 1, null => some none
  | _ + 1, vector values => some (some (.vector values (-1)))
  | fuel + 1, and children =>
    (children.mapM (build fuel)).map fun iters => some (.makeAnd iters)
  | fuel + 1, or children =>
    (children.mapM (build fuel)).bind fun iters => (PostingIterator.makeOr fuel iters).map some

end Baloo
