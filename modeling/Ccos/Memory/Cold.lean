import Ccos.Memory.Graph

/-!
# The COLD tier and its swap file

Demoted nodes stay in the `cold` map. With a spill store attached, their content moves to
content-addressed blobs, and whole entries move to blobs with a husk left in the on-disk index.
-/

open Std

namespace Ccos

namespace ColdSpill

variable {F : Type}

/-- A blob that is there already is not written again. -/
def put (h : Host F) (s : ColdSpill) (content : Str) : Hash × ColdSpill :=
  let hash := h.sha256 content
  (hash, { dir := insertFirst s.dir hash (h.compress content) })

/-- A blob that no longer hashes to its name is a miss. -/
def get (h : Host F) (s : ColdSpill) (hash : Hash) : Option Str :=
  match s.dir[hash]? with
  | none => none
  | some blob =>
    match h.decompress blob with
    | none => none
    | some text => if h.sha256 text = hash then some text else none

def remove (s : ColdSpill) (hash : Hash) : ColdSpill := { dir := s.dir.erase hash }

end ColdSpill

namespace MemoryGraph

variable {F : Type} [Scalar F]

section Spill

omit [Scalar F]

/-- `self.spill.as_ref().and_then(|cfg| cfg.store.get(&hash))`. -/
def spillGet (h : Host F) (g : MemoryGraph F) (hash : Hash) : Option Str :=
  g.spill.bind fun cfg => cfg.store.get h hash

/-- `cfg.store.put(&content)` for the attached store. -/
def spillPut (h : Host F) (g : MemoryGraph F) (content : Str) : MemoryGraph F :=
  { g with spill := g.spill.map fun cfg => { cfg with store := (cfg.store.put h content).2 } }

def spillRemove (g : MemoryGraph F) (hash : Hash) : MemoryGraph F :=
  { g with spill := g.spill.map fun cfg => { cfg with store := cfg.store.remove hash } }

/-! ## The husk index and the reverse adjacency -/

/-- A husk read, with the read cache it leaves. -/
def deepGet (g : MemoryGraph F) (id : NodeId) : Option DeepHusk × MemoryGraph F :=
  match g.huskStore with
  | none => (none, g)
  | some hs => ((hs.get id).1, { g with huskStore := some (hs.get id).2 })

def deepContains (g : MemoryGraph F) (id : NodeId) : Bool := (g.deepGet id).1.isSome

def deepEntries (g : MemoryGraph F) : List (NodeId × DeepHusk) :=
  match g.huskStore with
  | none => []
  | some hs => hs.liveEntries

def deepDelete (g : MemoryGraph F) (id : NodeId) : MemoryGraph F :=
  { g with huskStore := g.huskStore.map (·.delete id) }

def isCold (g : MemoryGraph F) (id : NodeId) : Bool := g.cold.contains id || g.deepContains id

def radjKey (a b : NodeId) : Str := a ++ '\x1f' :: b

/-- Records the archived edges from `id`, both ways. -/
def radjAdd (radj : Option (HuskStore Unit)) (id : NodeId) (others : List NodeId) :
    Option (HuskStore Unit) :=
  radj.map fun r => others.foldl (fun r o => (r.put (radjKey id o) ()).put (radjKey o id) ()) r

def radjDel (radj : Option (HuskStore Unit)) (id : NodeId) (others : List NodeId) :
    Option (HuskStore Unit) :=
  radj.map fun r => others.foldl (fun r o => (r.delete (radjKey id o)).delete (radjKey o id)) r

/-- Cold neighbours of a node: by the reverse adjacency when there is one, else by the edges of the
COLD map. -/
def coldNeighbours (g : MemoryGraph F) (id : NodeId) : List NodeId :=
  match g.radj with
  | some radj =>
    sortDedup <| (radj.scanPrefix (radjKey id [])).filterMap fun (k, _) =>
      let other := k.drop (radjKey id []).length
      if other != id && g.isCold other then some other else none
  | none =>
    sortDedup <| (g.cold.toList.flatMap fun (_, c) => c.edges).filterMap fun e =>
      if !e.touches id then none
      else if e.other id != id && g.cold.contains (e.other id) then some (e.other id) else none

/-! ## Releasing blobs -/

def referencedByFull (g : MemoryGraph F) (hash : Hash) : Bool :=
  g.cold.toList.any fun (_, c) => (c.spill.map (·.hash)) == some hash

def referencedByHusk (g : MemoryGraph F) (hash : Hash) : Bool :=
  g.deepEntries.any fun (_, husk) => husk.body.hash == hash

/-- The variant for content blobs: it does not look at the husks. -/
def releaseContentBlobIfOrphan (g : MemoryGraph F) (hash : Hash) : MemoryGraph F :=
  if g.referencedByFull hash then g else g.spillRemove hash

def releaseBlobIfOrphan (g : MemoryGraph F) (hash : Hash) : MemoryGraph F :=
  if g.referencedByFull hash || g.referencedByHusk hash then g else g.spillRemove hash

/-- Takes an entry out of the COLD map. -/
def dropCold (g : MemoryGraph F) (id : NodeId) : MemoryGraph F := { g with cold := g.cold.erase id }

/-- Drops the full COLD entry of `id` and its content blob. -/
def forgetFull (g : MemoryGraph F) (id : NodeId) : MemoryGraph F × List NodeId :=
  match g.cold[id]? with
  | none => (g, [])
  | some old =>
    let others := old.edges.map (·.other id)
    match old.spill with
    | some s => ((g.dropCold id).releaseContentBlobIfOrphan s.hash, others)
    | none => (g.dropCold id, others)

/-- Drops the husk of `id` and its body blob. -/
def forgetHusk (g : MemoryGraph F) (id : NodeId) : MemoryGraph F × List NodeId :=
  match g.deepGet id with
  | (none, g) => (g, [])
  | (some husk, g) => ((g.deepDelete id).releaseBlobIfOrphan husk.body.hash, husk.adj)

def forgetColdShadow (g : MemoryGraph F) (id : NodeId) : MemoryGraph F :=
  let (g, fromFull) := g.forgetFull id
  let (g, fromHusk) := g.forgetHusk id
  { g with radj := radjDel g.radj id (fromFull ++ fromHusk) }

end Spill

/-! ## Budgets -/

def coldInlineBytes (g : MemoryGraph F) : Nat :=
  (g.cold.toList.map fun (_, c) => if c.spill.isNone then byteLen c.node.content else 0).sum

def coldSpilledBytes (g : MemoryGraph F) : Nat :=
  (g.cold.toList.map fun (_, c) => (c.spill.map (·.len)).getD 0).sum

def entryResidentBytes (h : Host F) (key : NodeId) (c : ColdNode F) : Nat :=
  h.sizeOfColdNode + h.sizeOfNodeId
    + (byteLen key + byteLen c.node.id + byteLen c.node.label + byteLen c.node.content)
    + (c.edges.map fun e => h.sizeOfGraphEdge + byteLen e.source + byteLen e.target).sum

def coldResidentBytes (h : Host F) (g : MemoryGraph F) : Nat :=
  (g.cold.toList.map fun (k, c) => entryResidentBytes h k c).sum
    + (match g.huskStore with
      | some hs => hs.residentBytes h.huskLen
      | none => 0)

/-- The COLD entries that pass a filter. -/
def coldCandidates (g : MemoryGraph F) (keep : ColdNode F → Bool) : List (NodeId × GraphNode F) :=
  (g.cold.toList.filter (keep ·.2)).map fun (id, c) => (id, c.node)

/-- Moves the content of one entry to disk. -/
def spillContent (h : Host F) (g : MemoryGraph F) (id : NodeId) (c : ColdNode F) : MemoryGraph F :=
  let stub : SpillRef := { hash := h.sha256 c.node.content, len := byteLen c.node.content }
  let g := g.spillPut h c.node.content
  { g with cold := g.cold.insert id { c with node := { c.node with content := [] }, spill := some stub } }

def spillLoop (h : Host F) (budget : Nat) : List NodeId → Nat → MemoryGraph F → MemoryGraph F
  | [], _, g => g
  | id :: rest, resident, g =>
    if resident ≤ budget then g
    else
      match g.cold[id]? with
      | none => spillLoop h budget rest resident g
      | some c =>
        if c.spill.isSome then spillLoop h budget rest resident g
        else spillLoop h budget rest (resident - byteLen c.node.content) (g.spillContent h id c)

def enforceColdBudget (h : Host F) (g : MemoryGraph F) : MemoryGraph F :=
  match g.spill with
  | none => g
  | some cfg =>
    if g.coldInlineBytes ≤ cfg.inlineBudget then g
    else
      let resident := g.coldInlineBytes
      let (order, g) := g.rank (g.coldCandidates fun c => c.spill.isNone && !c.node.content.isEmpty)
      spillLoop h cfg.inlineBudget order resident g

/-- The neighbours that a husk keeps: the other endpoints, sorted, without self-loops. -/
def huskAdj (c : ColdNode F) : List NodeId :=
  sortDedup ((c.edges.map (·.other c.node.id)).filter (· != c.node.id))

/-- The entry with its content back inline; `none` when the blob is gone. -/
def foldInline (h : Host F) (g : MemoryGraph F) (c : ColdNode F) : Option (ColdNode F) :=
  match c.spill with
  | none => some c
  | some s => (g.spillGet h s.hash).map fun text =>
      { c with node := { c.node with content := text }, spill := none }

/-- Archives one entry as a blob and a husk. -/
def deepSpill (h : Host F) (g : MemoryGraph F) (id : NodeId) (c entry : ColdNode F) : MemoryGraph F :=
  let serialized := h.printCold entry
  let husk : DeepHusk :=
    { body := { hash := h.sha256 serialized, len := byteLen serialized }, adj := huskAdj c }
  let g := g.spillPut h serialized
  let g := { g with huskStore := g.huskStore.map (·.put id husk), cold := g.cold.erase id }
  match c.spill with
  | some s => g.releaseContentBlobIfOrphan s.hash
  | none => g

def deepSpillLoop (h : Host F) (budget : Nat) : List NodeId → Nat → MemoryGraph F → MemoryGraph F
  | [], _, g => g
  | id :: rest, resident, g =>
    if resident ≤ budget then g
    else
      match g.cold[id]? with
      | none => deepSpillLoop h budget rest resident g
      | some c =>
        let before := entryResidentBytes h id c
        let adjBytes := ((huskAdj c).map fun n => h.sizeOfNodeId + byteLen n).sum
        if h.sizeOfDeepHusk + h.sizeOfNodeId + adjBytes ≥ before then
          deepSpillLoop h budget rest resident g
        else
          match g.foldInline h c with
          | none => deepSpillLoop h budget rest resident g
          | some entry =>
            -- Without an index nothing is stored, and the entry stays.
            if g.huskStore.isNone then deepSpillLoop h budget rest resident (g.spillPut h (h.printCold entry))
            else deepSpillLoop h budget rest (resident - before) (g.deepSpill h id c entry)

def enforceColdResidentBudget (h : Host F) (g : MemoryGraph F) : MemoryGraph F :=
  match g.coldResidentBudget, g.spill with
  | some budget, some _ =>
    if g.coldResidentBytes h ≤ budget then g
    else
      let resident := g.coldResidentBytes h
      let (order, g) := g.rank (g.coldCandidates fun _ => true)
      deepSpillLoop h budget order resident g
  | _, _ => g

/-- The content of an entry with its byte length and blob; `none` when the blob is gone. -/
def materialise (h : Host F) (g : MemoryGraph F) (c : ColdNode F) :
    Option (Str × Nat × Option Hash) :=
  match c.spill with
  | some s => (g.spillGet h s.hash).map fun text => (text, s.len, some s.hash)
  | none => some (c.node.content, byteLen c.node.content, none)

def compactEntry (g : MemoryGraph F) (id : NodeId) (c : ColdNode F) (compact : Str)
    (oldHash : Option Hash) : MemoryGraph F :=
  let entry := { c with node := { c.node with content := compact }, spill := none, compacted := true }
  let g := { g with cold := g.cold.insert id entry }
  match oldHash with
  | some hash => g.releaseContentBlobIfOrphan hash
  | none => g

def compactLoop (h : Host F) (budget : Nat) : List NodeId → Nat → MemoryGraph F → MemoryGraph F
  | [], _, g => g
  | id :: rest, total, g =>
    if total ≤ budget then g
    else
      match g.cold[id]? with
      | none => compactLoop h budget rest total g
      | some c =>
        if c.compacted then compactLoop h budget rest total g
        else
          match g.materialise h c with
          | none => compactLoop h budget rest total g
          | some (content, oldLen, oldHash) =>
            let compact := h.compactContent c.node.nodeType.debug content
            if byteLen compact ≥ byteLen content then
              compactLoop h budget rest total
                { g with cold := g.cold.insert id { c with atFloor := true } }
            else
              compactLoop h budget rest (total - oldLen + byteLen compact)
                (g.compactEntry id c compact oldHash)

def enforceColdContentBudget (h : Host F) (g : MemoryGraph F) : MemoryGraph F :=
  match g.coldContentBudget with
  | none => g
  | some budget =>
    if g.coldInlineBytes + g.coldSpilledBytes ≤ budget then g
    else
      let total := g.coldInlineBytes + g.coldSpilledBytes
      let (order, g) := g.rank (g.coldCandidates fun c => !c.compacted && !c.atFloor)
      compactLoop h budget order total g

/-- The three budgets in the order every paging step enforces them. -/
def enforceColdBudgets (h : Host F) (g : MemoryGraph F) : MemoryGraph F :=
  ((g.enforceColdContentBudget h).enforceColdBudget h).enforceColdResidentBudget h

def setColdContentBudget (h : Host F) (g : MemoryGraph F) (budget : Option Nat) : MemoryGraph F :=
  enforceColdContentBudget h { g with coldContentBudget := budget }

def setColdResidentBudget (h : Host F) (g : MemoryGraph F) (budget : Option Nat) : MemoryGraph F :=
  enforceColdResidentBudget h { g with coldResidentBudget := budget }

/-- Attaching on fresh directories: the reverse adjacency starts from the COLD tier there is. -/
def attachColdSpill (h : Host F) (g : MemoryGraph F) (inlineBudget : Nat) : MemoryGraph F :=
  let radj := g.cold.toList.foldl
    (fun r (kv : NodeId × ColdNode F) => radjAdd r kv.1 (kv.2.edges.map (·.other kv.1)))
    (some (HuskStore.new 4096 1024))
  let g := { g with
    spill := some { store := { dir := ∅ }, inlineBudget }
    huskStore := some (HuskStore.new 4096 1024)
    radj }
  (g.enforceColdBudget h).enforceColdResidentBudget h

end MemoryGraph

end Ccos
