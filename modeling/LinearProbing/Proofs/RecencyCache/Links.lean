import LinearProbing.RecencyCache
import LinearProbing.Proofs.HandleStore
import Mathlib.Data.List.Induction

/-!
# LinearProbing.Proofs.RecencyCache.Links

**The doubly linked list of a cache.** `Chain` says of a stretch of the list what its nodes hold and how they
name their neighbours, given the neighbours of the stretch. `Links` says that the whole list of a cache is a
chain between `head` and `tail`, and that the store holds its nodes and no others but those that are named
apart: a node is apart while it is moved, after it was taken out of the list (`Links.unlink`) and before it
is put at the front (`Links.pushFront`).

Every change of a link goes to the end of one stretch, so it is enough to know what becomes of that stretch
(`Chain.setOlder`, `Chain.setNewer`); all other nodes stay as they are.
-/

namespace LinearProbing

namespace RecencyCache

variable {κ ν θ : Type} {ρ : Type → Type}

/-- An entry of the list with its handle. -/
structure Linked (κ ν θ : Type) where
  handle : θ
  key : κ
  value : ν

namespace Linked

/-- The node of an entry between two neighbours. -/
def node (x : Linked κ ν θ) (newer older : Option θ) : RecencyNode κ ν θ :=
  { key := x.key, value := x.value, newer, older }

/-- The node with the handle it is stored under, its own links left out. -/
def ofNode (e : θ × RecencyNode κ ν θ) : Linked κ ν θ := ⟨e.1, e.2.key, e.2.value⟩

def entry (x : Linked κ ν θ) : κ × ν := (x.key, x.value)

end Linked

/-! ### Stretches of the list -/

/-- The first handle of a stretch that `older` follows. -/
def first (l : List (Linked κ ν θ)) (older : Option θ) : Option θ :=
  match l with
  | [] => older
  | x :: _ => some x.handle

/-- The last handle of a stretch that `newer` precedes. -/
def last (newer : Option θ) : List (Linked κ ν θ) → Option θ
  | [] => newer
  | x :: rest => last (some x.handle) rest

/-- A stretch of the list between two neighbours. -/
def Chain (get : θ → Option (RecencyNode κ ν θ)) :
    Option θ → List (Linked κ ν θ) → Option θ → Prop
  | _, [], _ => True
  | newer, x :: rest, older =>
    get x.handle = some (x.node newer (first rest older)) ∧ Chain get (some x.handle) rest older

section Chains

variable {get get' : θ → Option (RecencyNode κ ν θ)} {newer older : Option θ}
variable {a b l : List (Linked κ ν θ)} {x : Linked κ ν θ}

/-- The head of a chain is that of its first part, or of what follows when that part is empty. -/
theorem first_append (a b : List (Linked κ ν θ)) (older : Option θ) :
    first (a ++ b) older = first a (first b older) := by cases a <;> rfl

/-- The last handle of a chain, read through a split. -/
theorem last_append (newer : Option θ) (a b : List (Linked κ ν θ)) :
    last newer (a ++ b) = last (last newer a) b := by
  induction a generalizing newer with
  | nil => rfl
  | cons x rest ih => exact ih (some x.handle)

/-- A chain splits at any point: the two parts name each other across the cut. -/
theorem chain_append :
    Chain get newer (a ++ b) older ↔
      Chain get newer a (first b older) ∧ Chain get (last newer a) b older := by
  induction a generalizing newer with
  | nil => simp [Chain, last]
  | cons x rest ih => simp only [List.cons_append, Chain, last, ih, first_append, and_assoc]

/-- A stretch depends on its own nodes only. -/
theorem Chain.congr (h : Chain get newer l older) (hget : ∀ x ∈ l, get' x.handle = get x.handle) :
    Chain get' newer l older := by
  induction l generalizing newer with
  | nil => trivial
  | cons x rest ih =>
      obtain ⟨hx, hrest⟩ := List.forall_mem_cons.mp hget
      exact ⟨hx.trans h.1, ih h.2 hrest⟩

/-- Every element of a chain is stored, with some pair of links. -/
theorem Chain.exists_node (h : Chain get newer l older) (hx : x ∈ l) :
    ∃ newer older, get x.handle = some (x.node newer older) := by
  obtain ⟨a, b, rfl⟩ := List.append_of_mem hx
  exact ⟨_, _, (chain_append.mp h).2.1⟩

end Chains

/-! ### Changing nodes -/

variable [HandleStore ρ θ] {c : RecencyCache κ ν ρ θ} {handle other : θ} {newer older : Option θ}
variable {a b l : List (Linked κ ν θ)} {x : Linked κ ν θ}

section Frames

variable {f : RecencyNode κ ν θ → RecencyNode κ ν θ}

/-- Rewriting one node leaves the capacity, the index and both ends. -/
theorem modifyNode_frame (c : RecencyCache κ ν ρ θ) (handle : θ)
    (f : RecencyNode κ ν θ → RecencyNode κ ν θ) :
    (c.modifyNode handle f).capacity = c.capacity ∧ (c.modifyNode handle f).index = c.index ∧
      (c.modifyNode handle f).head = c.head ∧ (c.modifyNode handle f).tail = c.tail := by
  unfold modifyNode
  split <;> exact ⟨rfl, rfl, rfl, rfl⟩

theorem setOlder_frame (c : RecencyCache κ ν ρ θ) (newer older : Option θ) :
    (c.setOlder newer older).capacity = c.capacity ∧ (c.setOlder newer older).index = c.index ∧
      (c.setOlder newer older).tail = c.tail := by
  unfold setOlder
  split
  · obtain ⟨hcapacity, hindex, -, htail⟩ := modifyNode_frame c _ ({ · with older })
    exact ⟨hcapacity, hindex, htail⟩
  · exact ⟨rfl, rfl, rfl⟩

theorem setNewer_frame (c : RecencyCache κ ν ρ θ) (older newer : Option θ) :
    (c.setNewer older newer).capacity = c.capacity ∧ (c.setNewer older newer).index = c.index ∧
      (c.setNewer older newer).head = c.head := by
  unfold setNewer
  split
  · obtain ⟨hcapacity, hindex, hhead, -⟩ := modifyNode_frame c _ ({ · with newer })
    exact ⟨hcapacity, hindex, hhead⟩
  · exact ⟨rfl, rfl, rfl⟩

/-- Changing links leaves capacity and index. -/
theorem unlink_frame (c : RecencyCache κ ν ρ θ) (handle : θ) :
    (c.unlink handle).capacity = c.capacity ∧ (c.unlink handle).index = c.index := by
  unfold unlink
  split
  · exact ⟨rfl, rfl⟩
  · next node _ =>
    have hmodify := modifyNode_frame c handle ({ · with newer := none, older := none })
    have holder := setOlder_frame (c.modifyNode handle ({ · with newer := none, older := none }))
      node.newer node.older
    have hnewer := setNewer_frame
      ((c.modifyNode handle ({ · with newer := none, older := none })).setOlder node.newer node.older)
      node.older node.newer
    exact ⟨hnewer.1.trans (holder.1.trans hmodify.1),
      hnewer.2.1.trans (holder.2.1.trans hmodify.2.1)⟩

/-- Putting a node in front leaves the capacity and the index. -/
theorem pushFront_frame (c : RecencyCache κ ν ρ θ) (handle : θ) :
    (c.pushFront handle).capacity = c.capacity ∧ (c.pushFront handle).index = c.index := by
  have hmodify := modifyNode_frame c handle ({ · with newer := none, older := c.head })
  have hnewer := setNewer_frame (c.modifyNode handle ({ · with newer := none, older := c.head }))
    c.head (some handle)
  exact ⟨hnewer.1.trans hmodify.1, hnewer.2.1.trans hmodify.2.1⟩

variable [LawfulHandleStore ρ θ]

theorem node?_modifyNode_self (c : RecencyCache κ ν ρ θ) (handle : θ)
    (f : RecencyNode κ ν θ → RecencyNode κ ν θ) :
    (c.modifyNode handle f).node? handle = (c.node? handle).map f := by
  unfold modifyNode
  split
  · next h => rw [h, Option.map_none]
  · next node h =>
    rw [h, Option.map_some]
    exact LawfulHandleStore.get?_set_self h

/-- The nodes of the other handles are left. -/
theorem node?_modifyNode_of_ne (hne : other ≠ handle) :
    (c.modifyNode handle f).node? other = c.node? other := by
  unfold modifyNode
  split
  · rfl
  · exact LawfulHandleStore.get?_set_of_ne hne

/-- Rewriting a node neither adds nor removes one. -/
theorem isSome_node?_modifyNode (c : RecencyCache κ ν ρ θ) (handle : θ)
    (f : RecencyNode κ ν θ → RecencyNode κ ν θ) (other : θ) :
    ((c.modifyNode handle f).node? other).isSome = (c.node? other).isSome := by
  by_cases heq : other = handle
  · rw [heq, node?_modifyNode_self, Option.isSome_map]
  · rw [node?_modifyNode_of_ne heq]

theorem isSome_node?_setOlder (c : RecencyCache κ ν ρ θ) (newer older : Option θ) (other : θ) :
    ((c.setOlder newer older).node? other).isSome = (c.node? other).isSome := by
  unfold setOlder
  split
  · exact isSome_node?_modifyNode ..
  · rfl

theorem isSome_node?_setNewer (c : RecencyCache κ ν ρ θ) (older newer : Option θ) (other : θ) :
    ((c.setNewer older newer).node? other).isSome = (c.node? other).isSome := by
  unfold setNewer
  split
  · exact isSome_node?_modifyNode ..
  · rfl

theorem isSome_node?_unlink (c : RecencyCache κ ν ρ θ) (handle other : θ) :
    ((c.unlink handle).node? other).isSome = (c.node? other).isSome := by
  unfold unlink
  split
  · rfl
  · rw [isSome_node?_setNewer, isSome_node?_setOlder, isSome_node?_modifyNode]

theorem isSome_node?_pushFront (c : RecencyCache κ ν ρ θ) (handle other : θ) :
    ((c.pushFront handle).node? other).isSome = (c.node? other).isSome :=
  (isSome_node?_setNewer ..).trans (isSome_node?_modifyNode ..)

end Frames

/-! ### Changing the ends of a stretch -/

/-- The handle of a stored node is live. -/
theorem live?_of_node? {node : RecencyNode κ ν θ} (h : c.node? handle = some node) :
    c.live? (some handle) = some handle := by
  simp [live?, h]

variable [LawfulHandleStore ρ θ]

/-- What is to follow a stretch is written into its last node, or into `head` if there is none. -/
theorem Chain.setOlder (h : Chain c.node? none l older) (hnodup : (l.map Linked.handle).Nodup)
    (hhead : c.head = first l older) (older' : Option θ) :
    Chain (c.setOlder (last none l) older').node? none l older' ∧
      (c.setOlder (last none l) older').head = first l older' ∧
      ∀ other ∉ l.map Linked.handle,
        (c.setOlder (last none l) older').node? other = c.node? other := by
  -- the node that is written is the last of the chain, so the split is at the end; the handles are distinct,
  -- so no earlier node is touched
  rcases List.eq_nil_or_concat' l with rfl | ⟨init, y, rfl⟩
  · exact ⟨trivial, rfl, fun _ _ => rfl⟩
  · obtain ⟨hinit, hy, -⟩ := chain_append.mp h
    have hlast : last none (init ++ [y]) = some y.handle := last_append ..
    have hset : c.setOlder (some y.handle) older' =
        c.modifyNode y.handle ({ · with older := older' }) := by
      simp only [RecencyCache.setOlder, live?_of_node? hy]
    rw [hlast, hset]
    rw [List.map_append, List.nodup_append] at hnodup
    refine ⟨chain_append.mpr ⟨?_, ?_, trivial⟩, ?_, ?_⟩
    · refine hinit.congr fun z hz => node?_modifyNode_of_ne ?_
      exact hnodup.2.2 _ (List.mem_map_of_mem hz) _ (List.mem_singleton.mpr rfl)
    · rw [node?_modifyNode_self, hy]
      rfl
    · rw [(modifyNode_frame ..).2.2.1, hhead, first_append, first_append]
      rfl
    · intro other hother
      refine node?_modifyNode_of_ne fun heq => hother ?_
      rw [heq]
      exact List.mem_map_of_mem (List.mem_append_right _ (List.mem_singleton.mpr rfl))

/-- What is to precede a stretch is written into its first node, or into `tail` if there is none. -/
theorem Chain.setNewer (h : Chain c.node? newer l none) (hnodup : (l.map Linked.handle).Nodup)
    (htail : c.tail = last newer l) (newer' : Option θ) :
    Chain (c.setNewer (first l none) newer').node? newer' l none ∧
      (c.setNewer (first l none) newer').tail = last newer' l ∧
      ∀ other ∉ l.map Linked.handle,
        (c.setNewer (first l none) newer').node? other = c.node? other := by
  -- here it is the first node, and the constructors of the list give the split
  cases l with
  | nil => exact ⟨trivial, rfl, fun _ _ => rfl⟩
  | cons y rest =>
      obtain ⟨hy, hrest⟩ := h
      have hset : c.setNewer (some y.handle) newer' =
          c.modifyNode y.handle ({ · with newer := newer' }) := by
        simp only [RecencyCache.setNewer, live?_of_node? hy]
      rw [first, hset]
      refine ⟨⟨?_, ?_⟩, ?_, ?_⟩
      · rw [node?_modifyNode_self, hy]
        rfl
      · refine hrest.congr fun z hz => node?_modifyNode_of_ne fun heq => ?_
        exact (List.nodup_cons.mp hnodup).1 (heq ▸ List.mem_map_of_mem hz)
      · exact (modifyNode_frame ..).2.2.2.trans htail
      · exact fun other hother =>
          node?_modifyNode_of_ne fun heq => hother (heq ▸ List.mem_cons_self)

/-! ### The whole list -/

/-- The list of a cache, with the nodes that are apart from it. -/
structure Links (c : RecencyCache κ ν ρ θ) (l apart : List (Linked κ ν θ)) : Prop where
  /-- No handle occurs twice. -/
  nodup : ((apart ++ l).map Linked.handle).Nodup
  chain : Chain c.node? none l none
  head : c.head = first l none
  tail : c.tail = last none l
  isApart : ∀ x ∈ apart, ∃ newer older, c.node? x.handle = some (x.node newer older)
  /-- There are no other nodes. -/
  exact : ∀ handle, (c.node? handle).isSome → handle ∈ (apart ++ l).map Linked.handle

/-- **A node is taken out of the list.** -/
theorem Links.unlink (h : c.Links (a ++ x :: b) []) : (c.unlink x.handle).Links (a ++ b) [x] := by
  obtain ⟨hnodup, hchain, hhead, htail, -, hexact⟩ := h
  obtain ⟨ha, hx, hb⟩ := chain_append.mp hchain
  rw [List.nil_append] at hnodup hexact
  have hperm : ((a ++ x :: b).map Linked.handle).Perm (([x] ++ (a ++ b)).map Linked.handle) :=
    List.perm_middle.map _
  have hnodup' := hperm.nodup_iff.mp hnodup
  rw [List.singleton_append, List.map_cons, List.map_append, List.nodup_cons, List.nodup_append,
    List.mem_append, not_or] at hnodup'
  obtain ⟨⟨hxa, hxb⟩, hna, hnb, hab⟩ := hnodup'
  -- the node loses its links
  have hstep : ∀ y ∈ a ++ b, (c.modifyNode x.handle
      ({ · with newer := none, older := none })).node? y.handle = c.node? y.handle := by
    intro y hy
    refine node?_modifyNode_of_ne fun heq => ?_
    rcases List.mem_append.mp hy with hy | hy
    · exact hxa (heq ▸ List.mem_map_of_mem hy)
    · exact hxb (heq ▸ List.mem_map_of_mem hy)
  have hframe := modifyNode_frame c x.handle ({ · with newer := none, older := none })
  have hself : (c.modifyNode x.handle ({ · with newer := none, older := none })).node? x.handle =
      some (x.node none none) := by
    rw [node?_modifyNode_self, hx]
    rfl
  have hunlink : c.unlink x.handle =
      ((c.modifyNode x.handle ({ · with newer := none, older := none })).setOlder (last none a)
        (first b none)).setNewer (first b none) (last none a) := by
    simp only [RecencyCache.unlink, hx]
    rfl
  have hlive := isSome_node?_unlink c x.handle
  rw [hunlink] at hlive ⊢
  generalize c.modifyNode x.handle ({ · with newer := none, older := none }) = d at *
  have ha' := ha.congr fun y hy => hstep y (List.mem_append_left _ hy)
  have hb' := hb.congr fun y hy => hstep y (List.mem_append_right _ hy)
  -- the stretch before it is followed by the one behind it
  obtain ⟨hchainA, hheadA, hframeA⟩ := ha'.setOlder hna
    (hframe.2.2.1.trans (hhead.trans (first_append ..))) (first b none)
  have htailA := (setOlder_frame d (last none a) (first b none)).2.2
  generalize d.setOlder (last none a) (first b none) = e at *
  have hb'' := hb'.congr fun y hy => hframeA y.handle fun hmem =>
    hab _ hmem _ (List.mem_map_of_mem hy) rfl
  -- and the one behind it is preceded by the one before it
  obtain ⟨hchainB, htailB, hframeB⟩ := hb''.setNewer hnb
    (htailA.trans (hframe.2.2.2.trans (htail.trans (last_append ..)))) (last none a)
  have hheadB := (setNewer_frame e (first b none) (last none a)).2.2
  refine
    { nodup := hperm.nodup_iff.mp hnodup
      chain := chain_append.mpr ⟨?_, hchainB⟩
      head := hheadB.trans (hheadA.trans (first_append ..).symm)
      tail := htailB.trans (last_append ..).symm
      isApart := ?_
      exact := fun handle hsome => hperm.mem_iff.mp (hexact handle (hlive handle ▸ hsome)) }
  · exact hchainA.congr fun y hy => hframeB y.handle fun hmem =>
      hab _ (List.mem_map_of_mem hy) _ hmem rfl
  · intro y hy
    obtain rfl := List.mem_singleton.mp hy
    exact ⟨none, none, (hframeB _ hxb).trans ((hframeA _ hxa).trans hself)⟩

/-- **A node is put at the front of the list.** -/
theorem Links.pushFront (h : c.Links l [x]) : (c.pushFront x.handle).Links (x :: l) [] := by
  obtain ⟨hnodup, hchain, hhead, htail, hapart, hexact⟩ := h
  obtain ⟨newer, older, hx⟩ := hapart x (List.mem_singleton.mpr rfl)
  obtain ⟨hxl, hnl⟩ := List.nodup_cons.mp hnodup
  -- the node itself is rewritten first: it is not on the chain, whose nodes all stay
  have hstep : Chain (c.modifyNode x.handle ({ · with newer := none, older := c.head })).node? none
      l none :=
    hchain.congr fun y hy => node?_modifyNode_of_ne fun heq => hxl (heq ▸ List.mem_map_of_mem hy)
  have hself : (c.modifyNode x.handle ({ · with newer := none, older := c.head })).node? x.handle =
      some (x.node none (first l none)) := by
    rw [node?_modifyNode_self, hx, hhead]
    rfl
  have hframe := modifyNode_frame c x.handle ({ · with newer := none, older := c.head })
  have hlive := isSome_node?_pushFront c x.handle
  have hpush : c.pushFront x.handle =
      { (c.modifyNode x.handle ({ · with newer := none, older := c.head })).setNewer (first l none)
          (some x.handle) with head := some x.handle } := by
    rw [← hhead]
    rfl
  rw [hpush] at hlive ⊢
  -- what follows needs only these facts of the cache in between
  generalize c.modifyNode x.handle ({ · with newer := none, older := c.head }) = d at *
  obtain ⟨hchain', htail', hframe'⟩ := hstep.setNewer hnl (hframe.2.2.2.trans htail) (some x.handle)
  exact
    { nodup := hnodup
      chain := ⟨(hframe' _ hxl).trans hself, hchain'⟩
      head := rfl
      tail := htail'
      isApart := fun _ hmem => absurd hmem List.not_mem_nil
      exact := fun handle hsome => hexact handle (hlive handle ▸ hsome) }

/-- The node that is apart is removed. -/
theorem Links.eraseNode (h : c.Links l [x]) :
    ({ c with nodes := HandleStore.erase c.nodes x.handle } : RecencyCache κ ν ρ θ).Links l [] := by
  obtain ⟨hxl, hnl⟩ := List.nodup_cons.mp h.nodup
  refine
    { nodup := hnl
      chain := h.chain.congr fun y hy => LawfulHandleStore.get?_erase_of_ne fun heq =>
        hxl (heq ▸ List.mem_map_of_mem hy)
      head := h.head
      tail := h.tail
      isApart := fun _ hmem => absurd hmem List.not_mem_nil
      exact := ?_ }
  -- a handle that is still live was live before, and it is not the freed one
  intro handle hsome
  have hne : handle ≠ x.handle := by
    rintro rfl
    rw [node?, LawfulHandleStore.get?_erase_self] at hsome
    cases hsome
  rw [node?, LawfulHandleStore.get?_erase_of_ne hne] at hsome
  exact (List.mem_cons.mp (h.exact handle hsome)).resolve_left hne

/-- A new node is apart. -/
theorem Links.insertNode (h : c.Links l []) (key : κ) (value : ν) :
    let added := HandleStore.insert c.nodes
      ({ key, value, newer := none, older := none } : RecencyNode κ ν θ)
    ({ c with nodes := added.2 } : RecencyCache κ ν ρ θ).Links l [⟨added.1, key, value⟩] := by
  intro added
  -- the store hands out a handle that is not live, and every handle of the list is
  have hfresh : added.1 ∉ l.map Linked.handle := by
    intro hmem
    obtain ⟨y, hy, heq⟩ := List.mem_map.mp hmem
    obtain ⟨newer, older, hnode⟩ := h.chain.exists_node hy
    rw [heq, node?, LawfulHandleStore.get?_fresh] at hnode
    cases hnode
  refine
    { nodup := List.nodup_cons.mpr ⟨hfresh, h.nodup⟩
      chain := h.chain.congr fun y hy => LawfulHandleStore.get?_insert_of_ne fun heq =>
        hfresh (heq ▸ List.mem_map_of_mem hy)
      head := h.head
      tail := h.tail
      isApart := ?_
      exact := ?_ }
  · intro y hy
    obtain rfl := List.mem_singleton.mp hy
    exact ⟨none, none, LawfulHandleStore.get?_insert_self ..⟩
  · intro handle hsome
    rcases Classical.em (handle = added.1) with rfl | hne
    · exact List.mem_cons_self
    · rw [node?, LawfulHandleStore.get?_insert_of_ne hne] at hsome
      exact List.mem_cons_of_mem _ (h.exact handle hsome)

omit [LawfulHandleStore ρ θ] in
/-- A cache with the same nodes has the same list. -/
theorem Links.congr {d : RecencyCache κ ν ρ θ} (h : c.Links l a) (hnodes : d.nodes = c.nodes)
    (hhead : d.head = c.head) (htail : d.tail = c.tail) : d.Links l a := by
  have hget : d.node? = c.node? := by
    funext handle
    rw [node?, hnodes, node?]
  exact ⟨h.nodup, hget ▸ h.chain, hhead.trans h.head, htail.trans h.tail, hget ▸ h.isApart,
    hget ▸ h.exact⟩

omit [LawfulHandleStore ρ θ] in
theorem links_nil (hempty : ∀ handle, c.node? handle = none) (hhead : c.head = none)
    (htail : c.tail = none) : c.Links [] [] where
  nodup := List.nodup_nil
  chain := trivial
  head := hhead
  tail := htail
  isApart _ hmem := absurd hmem List.not_mem_nil
  exact handle hsome := by rw [hempty] at hsome; cases hsome

/-! ### Following the list -/

omit [LawfulHandleStore ρ θ] in
/-- Walking the links only meets stored nodes. -/
theorem node?_of_mem_follow {next : RecencyNode κ ν θ → Option θ} {steps : Nat} {from? : Option θ}
    {e : θ × RecencyNode κ ν θ} (he : e ∈ c.follow next steps from?) : c.node? e.1 = some e.2 := by
  induction steps generalizing from? with
  | zero => cases from? <;> exact absurd he List.not_mem_nil
  | succ steps ih =>
      cases from? with
      | none => exact absurd he List.not_mem_nil
      | some handle =>
          unfold follow at he
          split at he
          · exact absurd he List.not_mem_nil
          · next node hnode =>
            rcases List.mem_cons.mp he with rfl | he
            · exact hnode
            · exact ih he

omit [LawfulHandleStore ρ θ] in
theorem follow_none (next : RecencyNode κ ν θ → Option θ) (steps : Nat) :
    c.follow next steps none = [] := by cases steps <;> rfl

omit [LawfulHandleStore ρ θ] in
/-- Walking the older links from the head lists the chain, newest first. -/
theorem Chain.follow_older (h : Chain c.node? newer l none) (more : Nat) :
    (c.follow RecencyNode.older (l.length + more) (first l none)).map Linked.ofNode = l := by
  induction l generalizing newer with
  | nil => rw [first, follow_none, List.map_nil]
  | cons x rest ih =>
      rw [List.length_cons, Nat.add_right_comm, first, follow, h.1]
      exact congrArg (x :: ·) (ih h.2)

omit [LawfulHandleStore ρ θ] in
/-- Walking the newer links from the tail lists the chain reversed. -/
theorem Chain.follow_newer (h : Chain c.node? none l older) (more : Nat) :
    (c.follow RecencyNode.newer (l.length + more) (last none l)).map Linked.ofNode = l.reverse := by
  induction l using List.reverseRecOn generalizing older with
  | nil => rw [last, follow_none, List.map_nil, List.reverse_nil]
  | append_singleton init y ih =>
      obtain ⟨hinit, hy, -⟩ := chain_append.mp h
      have hlast : last none (init ++ [y]) = some y.handle := last_append ..
      rw [hlast, List.length_append, List.length_singleton, Nat.add_right_comm, follow, hy,
        List.reverse_append]
      exact congrArg (y :: ·) (ih hinit)

omit [LawfulHandleStore ρ θ] in
/-- **From `head` on, the list.** However far one goes, there is nothing more. -/
theorem Links.follow_older (h : c.Links l []) (more : Nat) :
    (c.follow RecencyNode.older (l.length + more) c.head).map Linked.ofNode = l := by
  rw [h.head]
  exact h.chain.follow_older more

omit [LawfulHandleStore ρ θ] in
/-- **From `tail` on, the list backwards.** -/
theorem Links.follow_newer (h : c.Links l []) (more : Nat) :
    (c.follow RecencyNode.newer (l.length + more) c.tail).map Linked.ofNode = l.reverse := by
  rw [h.tail]
  exact h.chain.follow_newer more

/-- **The store holds the nodes of the list**, and no others. -/
theorem Links.entries_perm (h : c.Links l []) :
    (HandleStore.entries c.nodes).Perm (c.follow RecencyNode.older l.length c.head) := by
  have hhandles : (c.follow RecencyNode.older l.length c.head).map Prod.fst = l.map Linked.handle := by
    have hlist := congrArg (List.map Linked.handle) (h.follow_older 0)
    rwa [List.map_map] at hlist
  refine HandleStore.entries_perm (hhandles ▸ h.nodup) fun handle node => ⟨node?_of_mem_follow, ?_⟩
  intro hnode
  have hmem : handle ∈ (c.follow RecencyNode.older l.length c.head).map Prod.fst := by
    rw [hhandles]
    exact h.exact handle (Option.isSome_iff_exists.mpr ⟨node, hnode⟩)
  obtain ⟨⟨_, other⟩, he, rfl⟩ := List.mem_map.mp hmem
  obtain rfl : other = node := Option.some.inj ((node?_of_mem_follow he).symm.trans hnode)
  exact he

/-- The node store has exactly the nodes of the list. -/
theorem Links.len_eq (h : c.Links l []) : c.len = l.length := by
  have hlist := congrArg List.length (h.follow_older 0)
  rw [List.length_map, Nat.add_zero] at hlist
  rw [len, LawfulHandleStore.size_eq, h.entries_perm.length_eq, hlist]

theorem Links.keys_eq (h : c.Links l []) : c.keys = l.map Linked.key := by
  have hlist := congrArg (List.map Linked.key) (h.follow_older 0)
  rw [List.map_map, Nat.add_zero] at hlist
  rw [keys, h.len_eq]
  exact hlist

end RecencyCache

end LinearProbing
