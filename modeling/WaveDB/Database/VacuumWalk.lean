import WaveDB.Database.Flush

/-!
The walk of a vacuum (`database_vacuum_walk_hbnode` and `database_vacuum_walk_bnode` in
`Database/database.c`).

The walk copies every bnode of the trie, in memory or not, to a new page file, children
first, and puts the new offsets into the nodes as it goes. The two functions call
themselves and each other; here the pending calls and loop iterations are a list of tasks
(`WalkTask`) with the next one in front, and one step does one iteration. A step reads and
changes the trie in place, so every state in between is a state of the model.
-/

namespace WaveDB.Database

open HBTrie Storage

/-! ### Loading -/

def attachPage (e : BnodeEntry) (page : Bnode) : BnodeEntry :=
  match e.slot with
  | .childBnode _ => e.setChildBnode page
  | _ => e.setTrieNode { btree := page, diskOffset := some e.childDiskOffset, isDirty := false }

/-- An entry after the lazy load the walk makes for it, `none` when that fails: the child is
loaded if it is on disk and not in memory. -/
def loadBelow (load : Loader) (e : BnodeEntry) : Option BnodeEntry :=
  if e.bnodeBelow.isSome || e.childDiskOffset == 0 then some e
  else (load e.childDiskOffset).map (attachPage e)

/-! ### Tasks -/

inductive WalkTask where
  /-- The loop of `database_vacuum_walk_hbnode` over `leaf_stack`: the bnode that was popped,
  the next of its entries, and the stack with its top in front. -/
  | leaves (pos : List Nat) (index : Nat) (leafStack : List (List Nat))
  /-- The loop of `database_vacuum_walk_bnode` over the entries, and what follows it. -/
  | tree (pos : List Nat) (index : Nat)

/-- `database_vacuum_walk_hbnode` for the trie node at a position. -/
def walkHbnodeTasks (pos : List Nat) : List WalkTask := [.leaves pos 0 [], .tree pos 0]

section Walk

variable {σ : Type} (io : PageIo σ) (cs : ChunkSize) (load : Loader)

def entryAt (root : HbtrieNode) (pos : List Nat) (index : Nat) : Option BnodeEntry :=
  (root.btree.bnodeAt pos).bind fun bn => bn.entries[index]?

def loadEntryAt (s : FlushState σ) (pos : List Nat) (index : Nat) (e : BnodeEntry) :
    Option (FlushState σ × BnodeEntry) :=
  (loadBelow load e).map fun e' =>
    ({ s with root := s.root.modifyAt (fun bn => bn.setEntry index e') pos }, e')

/-- What an iteration of the first phase leaves to do at an entry: a child bnode is pushed, a
trie node is walked at once. -/
def leavesTasks (pos : List Nat) (index : Nat) (leafStack : List (List Nat)) (e : BnodeEntry) :
    List WalkTask :=
  if e.bnodeBelow.isNone then [.leaves pos (index + 1) leafStack]
  else if e.isBnodeChild then [.leaves pos (index + 1) ((pos ++ [index]) :: leafStack)]
  else walkHbnodeTasks (pos ++ [index]) ++ [.leaves pos (index + 1) leafStack]

/-- The same for the recursion of `database_vacuum_walk_bnode`. -/
def treeTasks (pos : List Nat) (index : Nat) (e : BnodeEntry) : List WalkTask :=
  if e.bnodeBelow.isNone then [.tree pos (index + 1)]
  else [.tree (pos ++ [index]) 0, .tree pos (index + 1)]

/-- The end of `database_vacuum_walk_bnode`: the bnode is written, and the entry above gets
the new offset. Nothing marks the bnode above as dirty. -/
def walkWrite (s : FlushState σ) (pos : List Nat) : Option (FlushState σ) :=
  (s.root.btree.bnodeAt pos).bind fun bn =>
    (io.writeNode s.file (bnodeSerializeV3 cs bn)).map fun written =>
      { root :=
          modifyParent (fun index => repointEntry index written.1) pos
            (s.root.modifyAt (placeBnode written.1) pos)
        file := written.2 }

/-- One iteration: the state after it and what it adds to the tasks, `none` when it makes
the walk return an error. -/
def walkTask (s : FlushState σ) : WalkTask → Option (FlushState σ × List WalkTask)
  | .leaves pos index leafStack =>
    match entryAt s.root pos index with
    | some e =>
      (loadEntryAt load s pos index e).map fun (s, e) =>
        (s, leavesTasks pos index leafStack e)
    | none =>
      match leafStack with
      | [] => some (s, [])
      | top :: leafStack => some (s, [.leaves top 0 leafStack])
  | .tree pos index =>
    match entryAt s.root pos index with
    | some e =>
      if e.isBnodeChild then
        (loadEntryAt load s pos index e).map fun (s, e) => (s, treeTasks pos index e)
      else some (s, [.tree pos (index + 1)])
    | none => (walkWrite io cs s pos).map fun s => (s, [])

def walkTasks : Nat → FlushState σ → List WalkTask → Outcome (FlushState σ)
  | _, s, [] => .returned true s
  | 0, s, _ :: _ => .running s
  | steps + 1, s, task :: tasks =>
    match walkTask io cs load s task with
    | none => .returned false s
    | some (s, added) => walkTasks steps s (added ++ tasks)

/-- `database_vacuum_walk_hbnode` for the root, for a number of iterations. -/
def databaseVacuumWalkHbnode (steps : Nat) (s : FlushState σ) : Outcome (FlushState σ) :=
  walkTasks io cs load steps s (walkHbnodeTasks [])

end Walk

end WaveDB.Database
