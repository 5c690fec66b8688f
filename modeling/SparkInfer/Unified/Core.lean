import SparkInfer.Unified.Tree

/-!
# The state of the unified tree

The component data of `UnifiedTreeCore` is kept in columns: a field of
`ComponentData` is a function of the layer, the component and the node.  `value`,
`lock_ref` and the window mark `metadata["uuid"]` are the device layer;
`host_value`, `host_lock_ref` and `metadata["host_uuid"]` the host layer.  The LRU
lists have the most recently used node first.
-/

namespace SparkInfer.Unified

inductive Layer
  | device | host
  deriving DecidableEq, Repr

def ComponentType.all : List ComponentType := [.full, .swa, .mamba]

structure CoreConfig where
  components : List ComponentType
  components_nodup : components.Nodup
  slidingWindowSize : Nat
  window_pos : 0 < slidingWindowSize
  isWriteBack : Bool

structure Data where
  tree : Tree
  value : Layer → ComponentType → NodeId → Option (List Int)
  lockRef : Layer → ComponentType → NodeId → Int
  uuid : Layer → NodeId → Option Nat
  uuidCounter : Nat

structure Core extends Data where
  lru : Layer → ComponentType → List NodeId
  evictableSize : ComponentType → Int
  protectedSize : ComponentType → Int
  evictableLeaves : Layer → Finset NodeId

namespace Data

def setValue (d : Data) (l : Layer) (ct : ComponentType) (n : NodeId) (v : Option (List Int)) :
    Data :=
  { d with value := fun l' ct' n' =>
      if l' = l ∧ ct' = ct ∧ n' = n then v else d.value l' ct' n' }

def setLockRef (d : Data) (l : Layer) (ct : ComponentType) (n : NodeId) (ref : Int) : Data :=
  { d with lockRef := fun l' ct' n' =>
      if l' = l ∧ ct' = ct ∧ n' = n then ref else d.lockRef l' ct' n' }

def setUuid (d : Data) (l : Layer) (n : NodeId) (u : Option Nat) : Data :=
  { d with uuid := fun l' n' => if l' = l ∧ n' = n then u else d.uuid l' n' }

/-- The component data of `_split_node`: the links, and what each component's
`redistribute_on_node_split` gives the new node and leaves to `child`. -/
def splitNode (d : Data) (child : NodeId) (splitLen : Nat) : Data where
  tree := d.tree.splitNode child splitLen
  value := fun l ct n =>
    match ct with
    | .full | .swa =>
      if n = d.tree.counter then (d.value l ct child).map (·.take splitLen)
      else if n = child then (d.value l ct child).map (·.drop splitLen)
      else d.value l ct n
    | .mamba => if n = d.tree.counter then none else d.value l ct n
  lockRef := fun l ct n =>
    if n = d.tree.counter then
      match l, ct with
      | .device, .full | .device, .swa => d.lockRef .device ct child
      | .device, .mamba | .host, _ => 0
    else d.lockRef l ct n
  uuid := fun l n =>
    match l with
    | .device =>
      if n = d.tree.counter then d.uuid .device child
      else if n = child then none
      else d.uuid .device n
    | .host => if n = d.tree.counter then none else d.uuid .host n
  uuidCounter := d.uuidCounter

def addNode (d : Data) (parent : NodeId) (keyLen : Nat) (l : Layer) (value : List Int) : Data where
  tree := d.tree.addNode parent keyLen
  value := fun l' ct n =>
    if n = d.tree.counter then (if l' = l ∧ ct = .full then some value else none)
    else d.value l' ct n
  lockRef := fun l' ct n => if n = d.tree.counter then 0 else d.lockRef l' ct n
  uuid := fun l' n => if n = d.tree.counter then none else d.uuid l' n
  uuidCounter := d.uuidCounter

end Data

namespace Core

/-- `reset`: the root alone, with `[]` as its Full value and locked once. -/
def fresh (cfg : CoreConfig) (counter uuidCounter : Nat) : Core where
  tree := .fresh counter
  value := fun l ct n => if l = .device ∧ ct = .full ∧ n = counter then some [] else none
  lockRef := fun l ct n => if l = .device ∧ ct ∈ cfg.components ∧ n = counter then 1 else 0
  uuid := fun _ _ => none
  uuidCounter := uuidCounter
  lru := fun _ _ => []
  evictableSize := fun _ => 0
  protectedSize := fun _ => 0
  evictableLeaves := fun _ => ∅

variable (c : Core) (l : Layer) (ct : ComponentType) (n : NodeId) (len : Int)

def setValue (v : Option (List Int)) : Core :=
  { c with toData := c.toData.setValue l ct n v }

def setLockRef (ref : Int) : Core :=
  { c with toData := c.toData.setLockRef l ct n ref }

/-- `len` tokens of a component move from the evictable to the protected size. -/
def protect : Core :=
  { c with
    evictableSize := Function.update c.evictableSize ct (c.evictableSize ct - len)
    protectedSize := Function.update c.protectedSize ct (c.protectedSize ct + len) }

def shrink : Core :=
  { c with evictableSize := Function.update c.evictableSize ct (c.evictableSize ct - len) }

def setLru (ns : List NodeId) : Core :=
  { c with lru := fun l' ct' => if l' = l ∧ ct' = ct then ns else c.lru l' ct' }

def detachLru : Core :=
  c.setLru l ct ((c.lru l ct).erase n)

def attachLru : Core :=
  if n ∈ c.lru l ct then c else c.setLru l ct (n :: c.lru l ct)

/-! The bookkeeping never touches the data. -/

@[simp] theorem protect_toData : (c.protect ct len).toData = c.toData := rfl

@[simp] theorem detachLru_toData : (c.detachLru l ct n).toData = c.toData := rfl

@[simp] theorem attachLru_toData : (c.attachLru l ct n).toData = c.toData := by
  unfold attachLru
  split_ifs <;> rfl

/-! ## Leaves -/

/-- Tree-level: Full KV not on device. -/
def Evicted : Prop :=
  c.tree.parent n ≠ none ∧ c.value .device .full n = none

instance (c : Core) (n : NodeId) : Decidable (c.Evicted n) :=
  inferInstanceAs (Decidable (_ ∧ _))

def IsDeviceLeaf : Prop :=
  n ≠ c.tree.rootNode ∧ ¬ c.Evicted n ∧ (∀ ct ∈ ComponentType.all, ¬ 0 < c.lockRef .device ct n) ∧
    ∀ child ∈ c.tree.children n, c.value .device .full child = none

instance (c : Core) (n : NodeId) : Decidable (c.IsDeviceLeaf n) :=
  inferInstanceAs (Decidable (_ ∧ _ ∧ _ ∧ _))

def IsHostLeaf : Prop :=
  n ≠ c.tree.rootNode ∧ c.Evicted n ∧ c.value .host .full n ≠ none ∧
    (∀ ct ∈ ComponentType.all, ¬ 0 < c.lockRef .host ct n) ∧ c.tree.children n = ∅

instance (c : Core) (n : NodeId) : Decidable (c.IsHostLeaf n) :=
  inferInstanceAs (Decidable (_ ∧ _ ∧ _ ∧ _ ∧ _))

def updateEvictableLeafSets : Core :=
  { c with evictableLeaves := fun
      | .device =>
        if c.IsDeviceLeaf n then insert n (c.evictableLeaves .device)
        else (c.evictableLeaves .device).erase n
      | .host =>
        if c.IsHostLeaf n then insert n (c.evictableLeaves .host)
        else (c.evictableLeaves .host).erase n }

@[simp] theorem updateEvictableLeafSets_toData :
    (c.updateEvictableLeafSets n).toData = c.toData := rfl

def discardDeviceLeaf : Core :=
  { c with evictableLeaves :=
      Function.update c.evictableLeaves .device ((c.evictableLeaves .device).erase n) }

/-! ## Evicting one component -/

/-- `SWAComponent.evict_component` and `MambaComponent.evict_component` on the
device layer, with the detaching of `_evict_component_and_detach_lru`. -/
def evictAuxDevice : Core :=
  let c := match c.value .device ct n with
    | some v => (c.setValue .device ct n none).shrink ct v.length
    | none => c
  -- only the host copy is left: it is now up for host eviction
  let c := if c.value .host ct n ≠ none then c.attachLru .host ct n else c
  c.detachLru .device ct n

end Core

end SparkInfer.Unified
