import Ccos.Octasoma.Saved
import Ccos.Octasoma.Insert

/-!
# Memories that can be restored

Every memory that inserts build fits its file, and so loads back as it was. A file that was cut short does not load.
-/

namespace Ccos.Octasoma

open Outcome ByteCodec FileFormat

namespace FractalMemory3D

/-- However a call stops. -/
def Anyhow (_ : Stop) : Prop := True

section

variable {F : Type} {m : FractalMemory3D F}

/-- The ids of the tree fit `u32`, and at most `n` items are in the buckets. -/
structure Compact (m : FractalMemory3D F) (n : Nat) : Prop where
  nodes : m.nodes.length ≤ noId
  node : ∀ node ∈ m.nodes, node.bucketId ≤ noId ∧ ∀ o, node.children o ≤ noId
  buckets : m.leafBuckets.length ≤ noId
  ids : ∀ b ∈ m.leafBuckets, ∀ id ∈ b, id < 2 ^ 32
  entries : m.leafBuckets.flatten.length ≤ n

/-- Only the nodes and buckets differ. -/
def SameStore (m m' : FractalMemory3D F) : Prop := m' = { m with nodes := m'.nodes, leafBuckets := m'.leafBuckets }

theorem SameStore.trans {m' m'' : FractalMemory3D F} (h : SameStore m m') (h' : SameStore m' m'') :
    SameStore m m'' := by
  unfold SameStore at *
  rw [h', h]

/-- A call on the tree that puts in at most `more` items. -/
def Adding (m : FractalMemory3D F) (n : Nat) (m' : FractalMemory3D F) : Prop := m'.Compact n ∧ SameStore m m'

theorem newLeaf_adding {n : Nat} (h : m.Compact n) (center : Point F) (half : F) :
    Meets Anyhow (m.newLeaf center half) fun r => r.1 ≤ noId ∧ Adding m n r.2 := by
  unfold newLeaf freshId
  by_cases hbuckets : m.leafBuckets.length < noId
  · by_cases hnodes : m.nodes.length < noId
    · rw [if_pos hbuckets, if_pos hnodes]
      refine meets_pure ⟨hnodes.le, ⟨?_, fun node hnode => ?_, ?_, fun b hb => ?_, ?_⟩, rfl⟩
      · show (m.nodes ++ [_]).length ≤ noId
        rw [List.length_append]
        exact hnodes
      · rcases List.mem_append.mp hnode with hnode | hnode
        · exact h.node node hnode
        · obtain rfl := List.mem_singleton.mp hnode
          exact ⟨hbuckets.le, fun _ => le_rfl⟩
      · show (m.leafBuckets ++ [_]).length ≤ noId
        rw [List.length_append]
        exact hbuckets
      · rcases List.mem_append.mp hb with hb | hb
        · exact h.ids b hb
        · obtain rfl := List.mem_singleton.mp hb
          exact fun id hid => absurd hid List.not_mem_nil
      · show (m.leafBuckets ++ [[]]).flatten.length ≤ n
        rw [List.flatten_append, List.length_append]
        exact h.entries
    · rw [if_pos hbuckets, if_neg hnodes]
      trivial
  · rw [if_neg hbuckets]
    trivial

theorem setChild_compact {n : Nat} (h : m.Compact n) (id : NodeId) (o : Fin 8) {child : NodeId}
    (hchild : child ≤ noId) :
    (m.setChild id o child).Compact n where
  nodes := by
    show (m.nodes.modify id _).length ≤ noId
    rw [List.length_modify]
    exact h.nodes
  node node hnode := by
    obtain ⟨i, hi⟩ := List.mem_iff_getElem?.mp hnode
    have hmodify : (m.nodes.modify id fun node => { node with children := Function.update node.children o child })[i]? =
        some node := hi
    rw [List.getElem?_modify] at hmodify
    obtain ⟨old, hold, heq⟩ := Option.map_eq_some_iff.mp hmodify
    have hmem := h.node old (List.mem_of_getElem? hold)
    split at heq
    · subst heq
      refine ⟨hmem.1, fun o' => ?_⟩
      show Function.update old.children o child o' ≤ noId
      by_cases ho : o' = o
      · rw [ho, Function.update_self]
        exact hchild
      · rw [Function.update_of_ne ho]
        exact hmem.2 o'
    · exact heq ▸ hmem
  buckets := h.buckets
  ids := h.ids
  entries := h.entries

theorem pushItem_compact {n : Nat} (h : m.Compact n) (bucketId : Nat) {item : ItemId} (hitem : item < 2 ^ 32) :
    (m.pushItem bucketId item).Compact (n + 1) where
  nodes := h.nodes
  node := h.node
  buckets := by
    show (m.leafBuckets.modify bucketId _).length ≤ noId
    rw [List.length_modify]
    exact h.buckets
  ids b hb id hid := by
    obtain ⟨i, hi⟩ := List.mem_iff_getElem?.mp hb
    have hmodify : (m.leafBuckets.modify bucketId fun bucket => bucket ++ [item])[i]? = some b := hi
    rw [List.getElem?_modify] at hmodify
    obtain ⟨old, hold, heq⟩ := Option.map_eq_some_iff.mp hmodify
    have hmem := h.ids old (List.mem_of_getElem? hold)
    split at heq
    · subst heq
      rcases List.mem_append.mp hid with hid | hid
      · exact hmem id hid
      · rw [List.mem_singleton.mp hid]
        exact hitem
    · exact hmem id (heq ▸ hid)
  entries := by
    have hpush : ∀ (l : List (List ItemId)) (b : Nat),
        (l.modify b fun bucket => bucket ++ [item]).flatten.length ≤ l.flatten.length + 1 := by
      intro l
      induction l with
      | nil => intro b; cases b <;> simp [List.modify]
      | cons bucket l ih =>
        intro b
        cases b with
        | zero => simp [List.modify]; omega
        | succ b =>
          have hrest := ih b
          simp only [List.modify_succ_cons, List.flatten_cons, List.length_append] at hrest ⊢
          omega
    exact (hpush m.leafBuckets bucketId).trans (Nat.succ_le_succ h.entries)

end

section

variable {F : Type} [Single F] {m : FractalMemory3D F}

theorem index_mem {α : Type} (xs : List α) (i : Nat) : Meets Anyhow (index xs i) fun x => xs[i]? = some x := by
  unfold index
  cases xs[i]? with
  | none => trivial
  | some x => exact rfl

theorem lazyChild_adding {n : Nat} (h : m.Compact n) (id : NodeId) (o : Fin 8) :
    Meets Anyhow (m.lazyChild id o) fun r => Adding m n r.2 := by
  unfold lazyChild
  refine meets_bind (index_mem _ _) fun node _ => ?_
  split
  · refine meets_bind (newLeaf_adding h _ _) ?_
    rintro ⟨child, m'⟩ ⟨hchild, hcompact, hsame⟩
    exact meets_pure ⟨setChild_compact hcompact id o hchild, hsame.trans rfl⟩
  · exact meets_pure ⟨h, rfl⟩

theorem moveItem_adding {n : Nat} (h : m.Compact n) (id : NodeId) (center : Point F) {item : ItemId}
    (hitem : item < 2 ^ 32) : Meets Anyhow (moveItem id center m item) (Adding m (n + 1)) := by
  unfold moveItem
  refine meets_bind (index_mem _ _) fun stored _ => ?_
  refine meets_bind (lazyChild_adding h _ _) ?_
  rintro ⟨child, m'⟩ ⟨hcompact, hsame⟩
  refine meets_bind (index_mem _ _) fun childNode _ => meets_bind (index_mem _ _) fun _ _ => ?_
  exact meets_pure ⟨pushItem_compact hcompact _ hitem, hsame.trans rfl⟩

theorem subdivide_adding {n : Nat} (h : m.Compact n) (id : NodeId) : Meets Anyhow (m.subdivide id) (Adding m n) := by
  unfold subdivide
  refine meets_bind (index_mem _ _) fun node hnode => meets_bind (index_mem _ _) fun moved hmoved => ?_
  -- What is taken out of the bucket is put back one by one.
  have hcard := congrArg Multiset.card (flatten_set hmoved [])
  simp only [Multiset.card_add, Multiset.coe_card, List.length_nil, Nat.zero_add] at hcard
  have hentries := h.entries
  have hstart : Compact { m with
      leafBuckets := m.leafBuckets.set node.bucketId []
      nodes := m.nodes.set id { node with bucketId := noId } } (n - moved.length) := by
    refine ⟨?_, fun node' hnode' => ?_, ?_, fun b hb => ?_, ?_⟩
    · show (m.nodes.set id _).length ≤ noId
      rw [List.length_set]
      exact h.nodes
    · rcases List.mem_or_eq_of_mem_set hnode' with hold | rfl
      · exact h.node node' hold
      · exact ⟨le_rfl, (h.node node (List.mem_of_getElem? hnode)).2⟩
    · show (m.leafBuckets.set node.bucketId []).length ≤ noId
      rw [List.length_set]
      exact h.buckets
    · rcases List.mem_or_eq_of_mem_set hb with hold | rfl
      · exact h.ids b hold
      · exact fun i hi => absurd hi List.not_mem_nil
    · show (m.leafBuckets.set node.bucketId []).flatten.length ≤ n - moved.length
      omega
  have hloop : Meets Anyhow (moved.foldlM (moveItem id node.center) { m with
      leafBuckets := m.leafBuckets.set node.bucketId []
      nodes := m.nodes.set id { node with bucketId := noId } }) (Adding m (n - moved.length + moved.length)) := by
    refine meets_foldlM (I := fun done m' => Adding m (n - moved.length + done.length) m') ⟨hstart, rfl⟩ ?_
    intro done item m' hitem hm'
    have hid : item < 2 ^ 32 := h.ids moved (List.mem_of_getElem? hmoved) item hitem
    refine (moveItem_adding hm'.1 id node.center hid).mono fun m'' hm'' => ⟨?_, hm'.2.trans hm''.2⟩
    rw [List.length_append]
    exact hm''.1
  refine hloop.mono fun m' hm' => ⟨?_, hm'.2⟩
  rw [show n = n - moved.length + moved.length by omega]
  exact hm'.1

theorem routeFrom_adding {n fuel : Nat} (h : m.Compact n) {item : ItemId} (hitem : item < 2 ^ 32) (point : Point F)
    (cur : NodeId) : Meets Anyhow (routeFrom item point fuel m cur) (Adding m (n + 1)) := by
  induction fuel generalizing m cur with
  | zero => trivial
  | succ fuel ih =>
    rw [routeFrom]
    refine meets_bind (index_mem _ _) fun node _ => ?_
    split
    · refine meets_bind (lazyChild_adding h _ _) ?_
      rintro ⟨child, m'⟩ ⟨hcompact, hsame⟩
      exact (ih hcompact child).mono fun m'' hm'' => ⟨hm''.1, hsame.trans hm''.2⟩
    · refine meets_bind (index_mem _ _) fun bucket _ => ?_
      split
      · exact meets_pure ⟨pushItem_compact h _ hitem, rfl⟩
      · refine meets_bind (subdivide_adding h _) fun m' hm' => ?_
        exact (ih hm'.1 cur).mono fun m'' hm'' => ⟨hm''.1, hm'.2.trans hm''.2⟩

theorem route_adding {n fuel : Nat} (h : m.Compact n) {item : ItemId} (hitem : item < 2 ^ 32) :
    Meets Anyhow (m.route fuel item) (Adding m (n + 1)) := by
  unfold route
  exact meets_bind (index_mem _ _) fun stored _ => routeFrom_adding h hitem _ _

theorem resetRoot_compact (m : FractalMemory3D F) : m.resetRoot.Compact 0 where
  nodes := show 1 ≤ noId by decide
  node node hnode := by
    obtain rfl := List.mem_singleton.mp hnode
    exact ⟨Nat.zero_le _, fun _ => le_rfl⟩
  buckets := show 1 ≤ noId by decide
  ids b hb id hid := by
    obtain rfl := List.mem_singleton.mp hb
    exact absurd hid List.not_mem_nil
  entries := le_rfl

/-! ## Every insert -/

/-- What a memory keeps through its inserts, besides the shape of the tree. -/
structure Archived (m : FractalMemory3D F) (highDim : Nat) (matrix : List F) (bucketCapacity : Nat) : Prop where
  tree : m.Compact m.items.length
  count : m.items.length ≤ 2 ^ 32
  item : ∀ item ∈ m.items, item.payloadOffset + item.payloadLen ≤ m.payloadArena.length
  highDim : m.highDim = highDim
  matrix : m.projectionMatrix = matrix
  capacity : m.bucketCapacity = bucketCapacity

theorem newEmpty_archived (highDim : Nat) (matrix : List F) (bucketCapacity : Nat) (minHalfSize : F) :
    (newEmpty highDim matrix bucketCapacity minHalfSize).Archived highDim matrix bucketCapacity :=
  ⟨resetRoot_compact _, Nat.zero_le _, fun _ hitem => absurd hitem List.not_mem_nil, rfl, rfl, rfl⟩

omit [Single F] in
theorem Archived.of_same {m' : FractalMemory3D F} {highDim bucketCapacity : Nat} {matrix : List F}
    (h : m.Archived highDim matrix bucketCapacity) (hsame : SameStore m m') (hcompact : m'.Compact m'.items.length) :
    m'.Archived highDim matrix bucketCapacity := by
  unfold SameStore at hsame
  refine ⟨hcompact, ?_, ?_, ?_, ?_, ?_⟩
  · rw [hsame]
    exact h.count
  · rw [hsame]
    exact h.item
  · rw [hsame]
    exact h.highDim
  · rw [hsame]
    exact h.matrix
  · rw [hsame]
    exact h.capacity

theorem growTo_archived {fuel highDim bucketCapacity : Nat} {matrix : List F}
    (h : m.Archived highDim matrix bucketCapacity) (coord : F) :
    Meets Anyhow (m.growTo fuel coord) fun m' => m'.Archived highDim matrix bucketCapacity := by
  unfold growTo
  have hworld : Meets Anyhow (growWorld coord fuel m.worldHalfSize) fun _ => True := by
    cases growWorld coord fuel m.worldHalfSize <;> trivial
  refine meets_bind hworld fun half _ => ?_
  have hfresh : Meets Anyhow (freshItemId { m with worldHalfSize := half }.resetRoot.items.length) fun _ => True := by
    cases freshItemId { m with worldHalfSize := half }.resetRoot.items.length <;> trivial
  refine meets_bind hfresh fun _ _ => ?_
  have hloop : Meets Anyhow ((List.range m.items.length).foldlM (route fuel) { m with worldHalfSize := half }.resetRoot)
      (Adding { m with worldHalfSize := half } (List.range m.items.length).length) := by
    refine meets_foldlM (I := fun done m' => Adding { m with worldHalfSize := half } done.length m') ?_ ?_
    · exact ⟨resetRoot_compact _, rfl⟩
    · intro done item m' hitem hm'
      have hlt : item < 2 ^ 32 := (List.mem_range.mp hitem).trans_le h.count
      refine (route_adding hm'.1 hlt).mono fun m'' hm'' => ⟨?_, hm'.2.trans hm''.2⟩
      rw [List.length_append]
      exact hm''.1
  refine hloop.mono fun m' hm' => ?_
  have hsame := hm'.2
  have hgrown : Archived { m with worldHalfSize := half } highDim matrix bucketCapacity :=
    ⟨⟨h.tree.nodes, h.tree.node, h.tree.buckets, h.tree.ids, h.tree.entries⟩, h.count, h.item, h.highDim, h.matrix,
      h.capacity⟩
  refine hgrown.of_same hsame ?_
  rw [show m'.items = m.items by rw [hsame]]
  have hcompact := hm'.1
  rwa [List.length_range] at hcompact

theorem growFor_archived {fuel highDim bucketCapacity : Nat} {matrix : List F}
    (h : m.Archived highDim matrix bucketCapacity) (point : Point F) :
    Meets Anyhow (m.growFor fuel point) fun m' => m'.Archived highDim matrix bucketCapacity := by
  unfold growFor
  split
  · exact growTo_archived h _
  · exact meets_pure h

theorem insertWith_archived {E : Type} (project : E → Option (Point F)) {fuel highDim bucketCapacity : Nat}
    {matrix : List F} (h : m.Archived highDim matrix bucketCapacity) (embedding : E) (payload : Option (List UInt8)) :
    Meets Anyhow (insertWith project fuel m embedding payload) fun r => r.2.Archived highDim matrix bucketCapacity := by
  unfold insertWith
  split
  · exact meets_pure h
  · split
    · exact meets_pure h
    · refine meets_bind (growFor_archived h _) fun m₁ h₁ => ?_
      have hfresh : Meets Anyhow (freshItemId m₁.items.length) fun item =>
          item < 2 ^ 32 ∧ m₁.items.length < 2 ^ 32 := by
        unfold freshItemId
        split
        · rename_i hlt
          exact ⟨hlt, hlt⟩
        · trivial
      refine meets_bind hfresh fun item hitem => ?_
      rename_i point _ _
      have hstaged : (m₁.stage point payload).Compact m₁.items.length :=
        ⟨h₁.tree.nodes, h₁.tree.node, h₁.tree.buckets, h₁.tree.ids, h₁.tree.entries⟩
      refine meets_bind (route_adding hstaged hitem.1) fun m₂ hm₂ => meets_pure ?_
      have hlength : (m₁.stage point payload).items.length = m₁.items.length + 1 := by
        show (m₁.items ++ [_]).length = _
        rw [List.length_append, List.length_singleton]
      have harchived : (m₁.stage point payload).Archived highDim matrix bucketCapacity := by
        refine ⟨?_, ?_, fun stored hstored => ?_, h₁.highDim, h₁.matrix, h₁.capacity⟩
        · rw [hlength]
          exact ⟨hstaged.nodes, hstaged.node, hstaged.buckets, hstaged.ids, hstaged.entries.trans (Nat.le_succ _)⟩
        · rw [hlength]
          exact hitem.2
        · show stored.payloadOffset + stored.payloadLen ≤ (m₁.payloadArena ++ payload.getD []).length
          rw [List.length_append]
          rcases List.mem_append.mp hstored with hold | hnew
          · exact (h₁.item stored hold).trans (Nat.le_add_right _ _)
          · obtain rfl := List.mem_singleton.mp hnew
            cases payload <;> exact le_rfl
      refine harchived.of_same hm₂.2 ?_
      have hsame := hm₂.2
      rw [show m₂.items = (m₁.stage point payload).items by rw [hsame], hlength]
      exact hm₂.1

end

/-! ## Every run -/

section

variable {F E : Type} [Single F] [Stored F]

/-- One insert after the other. -/
def insertEach (project : E → Option (Point F)) (fuel : Nat) (m : FractalMemory3D F)
    (inserts : List (E × Option (List UInt8))) : Except Stop (FractalMemory3D F) :=
  inserts.foldlM (fun m insert => do
    let (_, m) ← insertWith project fuel m insert.1 insert.2
    return m) m

omit [Stored F] in
theorem insertEach_archived (project : E → Option (Point F)) {fuel highDim bucketCapacity : Nat} {matrix : List F}
    {m : FractalMemory3D F} (h : m.Archived highDim matrix bucketCapacity) (inserts : List (E × Option (List UInt8))) :
    Meets Anyhow (insertEach project fuel m inserts) fun m' => m'.Archived highDim matrix bucketCapacity := by
  refine meets_foldlM (I := fun _ (m' : FractalMemory3D F) => m'.Archived highDim matrix bucketCapacity) h ?_
  intro done insert m' _ hm'
  refine meets_bind (insertWith_archived project hm' insert.1 insert.2) ?_
  rintro ⟨_, m''⟩ hm''
  exact meets_pure hm''

omit [Single F] [Stored F] in
theorem Archived.storable {m : FractalMemory3D F} {highDim bucketCapacity : Nat} {matrix : List F}
    (h : m.Archived highDim matrix bucketCapacity) (hmatrix : matrix.length < 2 ^ 64)
    (hcapacity : bucketCapacity < 2 ^ 64) (harena : m.payloadArena.length < 2 ^ 63) : m.Storable := by
  have hid : noId < 2 ^ 32 := by decide
  have hcount : m.items.length < 2 ^ 64 := h.count.trans_lt (by norm_num)
  refine ⟨?_, fun node hnode => ?_, ?_, fun b hb => ⟨?_, h.tree.ids b hb⟩, hcount, h.item, ?_, ?_, harena⟩
  · exact (h.tree.nodes.trans_lt hid).trans (by norm_num)
  · exact ⟨(h.tree.node node hnode).1.trans_lt hid, fun o => ((h.tree.node node hnode).2 o).trans_lt hid⟩
  · exact (h.tree.buckets.trans_lt hid).trans (by norm_num)
  · have hle : b.length ≤ m.leafBuckets.flatten.length := (List.sublist_flatten_of_mem hb).length_le
    exact (hle.trans h.tree.entries).trans_lt hcount
  · rw [h.matrix]
    exact hmatrix
  · rw [h.capacity]
    exact hcapacity

omit [Single F] [Stored F] in
/-- A dimension that lost its high bits is not the one expected. -/
theorem readHeader_cut {m : FractalMemory3D F} (hdim : 2 ^ 32 ≤ m.highDim) (rest : Bytes) :
    ∃ e, readHeader m.highDim (putHeader m ++ rest) = .error e := by
  have hversion : fileVersion < 2 ^ 32 := by decide
  have hne : m.highDim % 256 ^ 4 ≠ m.highDim := ((Nat.mod_lt _ (by norm_num)).trans_le hdim).ne
  unfold putHeader readHeader
  rw [List.append_assoc, List.append_assoc]
  refine (Encodes.takeBytes FileError.unexpectedEof fileMagic).bind_error ?_
  refine (readU32_encodes hversion).bind_error ?_
  refine (Encodes.natLe_mod FileError.unexpectedEof 4 m.highDim).bind_error ?_
  rw [checkHeader, if_neg (not_not.mpr rfl), if_neg (not_not.mpr rfl), if_pos hne]
  exact ⟨_, rfl⟩

end

/-! ## A memory without items -/

/-- A new memory with the defaults of the source. -/
def newMemory : FractalMemory3D Word := newEmpty 1 [.one, .one, .one] 16 ⟨0x358637bd⟩

end FractalMemory3D

end Ccos.Octasoma
