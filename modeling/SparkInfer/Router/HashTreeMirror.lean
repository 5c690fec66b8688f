import SparkInfer.Router.HashTreeShape

/-!
# The hash tree mirrors the workers' caches

The calls on a tree are an interleaving of the workers' event streams with lookups
and evictions.  What a worker holds is what its own events add up to.  A worker is
never listed at a block that it does not hold; and when the streams keep their
blocks closed under parents and nothing is evicted, the tree is exactly the union of
the workers' caches.
-/

namespace SparkInfer.Router

open Lib List Finset Finmap TreeState Option

variable {keep : NodeId → KvWorkerId → Prop} {n' : Node}
variable {parents : BlockHash → List BlockHash} {id id' : NodeId} {n : Node} {w' : KvWorkerId}
variable {f : Node → Node} {X : Finset BlockHash} {now : ℕ} {order : IterOrder NodeId}
variable {hashes : List BlockHash}

inductive Event where
  | blockStored (parentHash : Option BlockHash) (blockHashes : List BlockHash)
  | blockRemoved (blockHashes : List BlockHash)
  | allBlocksCleared

inductive Op where
  | event (worker : KvWorkerId) (e : Event)
  | matchPrefix (parentHash : Option BlockHash) (blockHashes : List BlockHash)
  | evictLru (maxSize : ℕ)

/-- A call, with the time it is made at and the order its loops visit hash sets in. -/
structure Call where
  op : Op
  now : ℕ
  order : IterOrder NodeId

def Event.apply : Event → Finset BlockHash → Finset BlockHash
  | .blockStored _ blockHashes, held => held ∪ blockHashes.toFinset
  | .blockRemoved blockHashes, held => held \ blockHashes.toFinset
  | .allBlocksCleared, _ => ∅

def Op.replay (w : KvWorkerId) (held : Finset BlockHash) : Op → Finset BlockHash
  | .event worker e => if worker = w then e.apply held else held
  | _ => held

/-- What `w` holds after its own events among `calls`. -/
def replay (calls : List Call) (w : KvWorkerId) : Finset BlockHash :=
  calls.foldl (fun held c => c.op.replay w held) ∅

namespace TreeState

def event (s : TreeState) (order : IterOrder NodeId) (now : ℕ) (worker : KvWorkerId) : Event → TreeState
  | .blockStored parentHash blockHashes => s.insert order now worker parentHash blockHashes
  | .blockRemoved blockHashes => s.remove order worker blockHashes
  | .allBlocksCleared => s.clearWorker order worker

def step (s : TreeState) (c : Call) : TreeState :=
  match c.op with
  | .event worker e => s.event c.order c.now worker e
  | .matchPrefix parentHash blockHashes => (s.matchPrefix c.order c.now parentHash blockHashes).1
  | .evictLru maxSize => (s.evictLru c.order maxSize).1

def run (start : ℕ) (calls : List Call) : TreeState := calls.foldl step (new start)

end TreeState

/-- `parents` is the chain of every block of `blockHashes` stored below `base`. -/
def Positioned (parents : BlockHash → List BlockHash) : List BlockHash → List BlockHash → Prop
  | _, [] => True
  | base, h :: hs => parents h = base ∧ Positioned parents (base ++ [h]) hs

instance decidablePositioned (parents : BlockHash → List BlockHash) :
    ∀ base hs, Decidable (Positioned parents base hs)
  | _, [] => .isTrue trivial
  | base, h :: hs =>
    have := decidablePositioned parents (base ++ [h]) hs
    inferInstanceAs (Decidable (parents h = base ∧ Positioned parents (base ++ [h]) hs))

def chainOf (parents : BlockHash → List BlockHash) : Option BlockHash → List BlockHash
  | none => []
  | some h => parents h ++ [h]

/-- Equal hashes have equal parent chains: `parents` gives the chain of every block
that is stored. -/
def PositionUnique (parents : BlockHash → List BlockHash) (calls : List Call) : Prop :=
  ∀ c ∈ calls, ∀ worker parentHash blockHashes,
    c.op = .event worker (.blockStored parentHash blockHashes) →
      Positioned parents (chainOf parents parentHash) blockHashes

/-- A worker that holds `held` stores blocks below one it holds, and does not remove
a block before the blocks below it. -/
def Event.Orderly (parents : BlockHash → List BlockHash) (held : Finset BlockHash) : Event → Prop
  | .blockStored parentHash blockHashes => blockHashes ≠ [] → ∀ p ∈ parentHash, p ∈ held
  | .blockRemoved blockHashes =>
    ∀ h ∈ held, h ∉ blockHashes → ∀ p ∈ (parents h).getLast?, p ∉ blockHashes
  | .allBlocksCleared => True

instance (parents : BlockHash → List BlockHash) (held : Finset BlockHash) :
    ∀ e : Event, Decidable (e.Orderly parents held)
  | .blockStored parentHash blockHashes =>
    have := decidableForallMem (p := fun p => p ∈ held) parentHash
    inferInstanceAs (Decidable (blockHashes ≠ [] → ∀ p ∈ parentHash, p ∈ held))
  | .blockRemoved blockHashes =>
    have := fun h => decidableForallMem (p := fun p => p ∉ blockHashes) (parents h).getLast?
    decidableDforallFinset (p := fun h _ => h ∉ blockHashes →
      ∀ p ∈ (parents h).getLast?, p ∉ blockHashes)
  | .allBlocksCleared => .isTrue trivial

def Orderly (parents : BlockHash → List BlockHash) (calls : List Call) : Prop :=
  ∀ before c after, calls = before ++ c :: after → ∀ worker e, c.op = .event worker e →
    e.Orderly parents (replay before worker)

def NoEviction (calls : List Call) : Prop := ∀ c ∈ calls, ∀ maxSize, c.op ≠ .evictLru maxSize

def HoldsPath (parents : BlockHash → List BlockHash) (held : Finset BlockHash)
    (path : List BlockHash) : Prop :=
  Positioned parents [] path ∧ ∀ h ∈ path, h ∈ held

theorem positioned_append {base hs hs' : List BlockHash} : Positioned parents base (hs ++ hs') ↔
      Positioned parents base hs ∧ Positioned parents (base ++ hs) hs' := by
  induction hs generalizing base with
  | nil => simp [Positioned]
  | cons h hs ih => simp [Positioned, ih, and_assoc]

namespace TreeState

variable {s s' : TreeState} {i p cur : NodeId} {cn : Node} {h : BlockHash} {w : KvWorkerId}
variable {held held' : KvWorkerId → Finset BlockHash}

section Sound

def Sound (held : KvWorkerId → Finset BlockHash) (s : TreeState) : Prop :=
  ∀ ⦃id n w⦄, s.nodes.lookup id = some n → id ≠ rootId → w ∈ n.workers → n.blockHash ∈ held w

theorem Sound.trim (hs : s.Sound held) (ht : Trim keep s s')
    (hk : ∀ {id n w}, s.nodes.lookup id = some n → id ≠ rootId → w ∈ n.workers → keep id w →
      n.blockHash ∈ held w → n.blockHash ∈ held' w) : s'.Sound held' := by
  intro id n' w hn' hne hw
  obtain ⟨n, hn, hhash, -, hiff⟩ := ht.came hn'
  obtain ⟨hw, hkeep⟩ := (hiff w).mp hw
  rw [hhash]
  exact hk hn hne hw hkeep (hs hn hne hw)

theorem workersAt_of_lookup (hn : s.nodes.lookup id = some n) : s.workersAt id = n.workers := by
  rw [workersAt, hn, elim_some]

theorem mem_workersAt : w ∈ s.workersAt id ↔ ∃ n, s.nodes.lookup id = some n ∧ w ∈ n.workers := by
  cases hn : s.nodes.lookup id with
  | none | some n => simp [workersAt, hn]

section

variable (hm : Marked w h cur id s s')
include hm

theorem Marked.came (hn : s'.nodes.lookup i = some n) :
    (i = id ∧ n.blockHash = h ∧ n.parent = some cur ∧
      n.workers = Insert.insert w (s.workersAt id)) ∨
    (i ≠ id ∧ ∃ n₀, s.nodes.lookup i = some n₀ ∧ n.blockHash = n₀.blockHash ∧
      n.parent = n₀.parent ∧ n.workers = n₀.workers) := by
  by_cases hi : i = id
  · subst hi
    obtain ⟨n', hn', hhash, hpar, hwork⟩ := core_eq_some.mp hm.self
    cases hn.symm.trans hn'
    exact .inl ⟨rfl, hhash, hpar, hwork⟩
  have hcore := hm.other hi
  rw [core, hn] at hcore
  obtain ⟨n₀, hn₀, hhash, hpar, hwork⟩ := core_eq_some.mp hcore.symm
  exact .inr ⟨hi, n₀, hn₀, hhash.symm, hpar.symm, hwork.symm⟩

theorem Marked.stays (hn : s.nodes.lookup i = some n) :
    ∃ n', s'.nodes.lookup i = some n' ∧ n'.blockHash = n.blockHash ∧ n'.parent = n.parent := by
  by_cases hi : i = id
  · subst hi
    obtain ⟨hhash, hpar⟩ := hm.old hn
    obtain ⟨n', hn', hhash', hpar', -⟩ := core_eq_some.mp hm.self
    exact ⟨n', hn', hhash'.trans hhash.symm, hpar'.trans hpar.symm⟩
  have hcore := hm.other hi
  rw [core, core, hn] at hcore
  obtain ⟨n', hn', heq⟩ := map_eq_some_iff.mp hcore
  exact ⟨n', hn', congrArg (·.1) heq, congrArg (·.2.1) heq⟩

theorem Marked.ne_root : id ≠ rootId := by
  obtain ⟨n, hn, -, hpar, -⟩ := core_eq_some.mp hm.self
  exact hm.tidy.toLinked.ne_root_of_parent hpar hn

end

theorem Sound.mark (hs : s.Sound held) (hm : Marked w h cur id s s')
    (hheld : ∀ w' h', h' ∈ held' w' ↔ h' ∈ held w' ∨ (w' = w ∧ h' = h)) : s'.Sound held' := by
  intro i n w' hn hne hw'
  rw [hheld]
  rcases hm.came hn with ⟨rfl, rfl, -, hwork⟩ | ⟨-, n₀, hn₀, hhash, -, hwork⟩
  · rw [hwork, Finset.mem_insert] at hw'
    rcases hw' with rfl | hw'
    · exact .inr ⟨rfl, rfl⟩
    · obtain ⟨n₀, hn₀, hw'⟩ := mem_workersAt.mp hw'
      exact .inl ((hm.old hn₀).1 ▸ hs hn₀ hne hw')
  · rw [hwork] at hw'
    exact .inl (hhash ▸ hs hn₀ hne hw')

end Sound

section Placed

def chainAt (parents : BlockHash → List BlockHash) (s : TreeState) (id : NodeId) : List BlockHash :=
  if id = rootId then [] else chainOf parents ((s.nodes.lookup id).map Node.blockHash)

theorem chainAt_root : s.chainAt parents rootId = [] := if_pos rfl

section

variable (hn : s.nodes.lookup id = some n)
include hn

theorem chainAt_of_ne (hne : id ≠ rootId) :
    s.chainAt parents id = parents n.blockHash ++ [n.blockHash] := by
  rw [chainAt, if_neg hne, hn]
  rfl

theorem chainAt_congr (hn' : s'.nodes.lookup id = some n') (hhash : n'.blockHash = n.blockHash) :
    s'.chainAt parents id = s.chainAt parents id := by
  rw [chainAt, chainAt, hn, hn', map_some, map_some, hhash]

/-- Every block is where its own parent chain puts it. -/
def Placed (parents : BlockHash → List BlockHash) (s : TreeState) : Prop :=
  ∀ ⦃id n p⦄, s.nodes.lookup id = some n → n.parent = some p →
    parents n.blockHash = s.chainAt parents p

theorem chainAt_eq_nil : s.chainAt parents id = [] ↔ id = rootId := by
  refine ⟨fun hnil => ?_, fun h => h ▸ chainAt_root⟩
  by_contra hne
  rw [chainAt_of_ne hn hne] at hnil
  exact append_ne_nil_of_right_ne_nil _ (cons_ne_nil _ _) hnil

end

variable (hp : s.Placed parents)
include hp

/-- By induction on the length of the chain: the parents have the same chain. -/
theorem Placed.node_eq (hs : s.Linked) (hn : s.nodes.lookup id = some n)
    (hn' : s.nodes.lookup id' = some n') (hchain : s.chainAt parents id = s.chainAt parents id') :
    id = id' := by
  induction hlen : (s.chainAt parents id).length using Nat.strong_induction_on
    generalizing id id' n n' with
  | _ len ih =>
    have hboth : id = rootId ↔ id' = rootId := by
      rw [← chainAt_eq_nil hn, ← chainAt_eq_nil hn', hchain]
    by_cases hne : id = rootId
    · rw [hne, hboth.mp hne]
    have hne' := mt hboth.mpr hne
    obtain ⟨p, pn, hpar, hpn, hchild, -⟩ := hs.up hn hne
    obtain ⟨p', pn', hpar', hpn', hchild', -⟩ := hs.up hn' hne'
    rw [chainAt_of_ne hn hne, hp hn hpar] at hchain hlen
    rw [chainAt_of_ne hn' hne', hp hn' hpar'] at hchain
    obtain ⟨hpars, hlast⟩ := append_inj' hchain rfl
    rw [length_append, length_singleton] at hlen
    obtain rfl := ih _ (by omega) hpn hpn' hpars rfl
    cases hpn.symm.trans hpn'
    rw [singleton_inj.mp hlast, hchild'] at hchild
    exact (some.inj hchild).symm

theorem Placed.unique (hs : s.Linked) (hn : s.nodes.lookup id = some n)
    (hn' : s.nodes.lookup id' = some n') (hne : id ≠ rootId) (hne' : id' ≠ rootId)
    (hhash : n.blockHash = n'.blockHash) : id = id' :=
  hp.node_eq hs hn hn' (by rw [chainAt_of_ne hn hne, chainAt_of_ne hn' hne', hhash])

theorem Placed.trim (ht : Trim keep s s') (hs' : s'.Linked) : s'.Placed parents := by
  intro id n' p hn' hpar'
  obtain ⟨n, hn, hhash, hpar, -⟩ := ht.came hn'
  obtain ⟨pn', hpn', -⟩ := hs'.parent_link hn' hpar'
  obtain ⟨pn, hpn, hphash, -⟩ := ht.came hpn'
  rw [hhash, hp hn (hpar.symm.trans hpar'), chainAt_congr hpn hpn' hphash]

omit hp in
theorem Marked.chainAt_eq (hm : Marked w h cur id s s') (hn : s.nodes.lookup i = some n) :
    s'.chainAt parents i = s.chainAt parents i := by
  obtain ⟨n', hn', hhash, -⟩ := hm.stays hn
  exact chainAt_congr hn hn' hhash

theorem Placed.mark (hs : s.Linked) (hm : Marked w h cur id s s')
    (hcur : s.nodes.lookup cur = some cn) (hpos : parents h = s.chainAt parents cur) :
    s'.Placed parents := by
  intro i n p hn hpar
  rcases hm.came hn with ⟨rfl, rfl, hpar', -⟩ | ⟨-, n₀, hn₀, hhash, hpar', -⟩
  · cases hpar.symm.trans hpar'
    rw [hpos, hm.chainAt_eq hcur]
  · have hpar₀ : n₀.parent = some p := hpar'.symm.trans hpar
    obtain ⟨pn, hpn, -⟩ := hs.parent_link hn₀ hpar₀
    rw [hhash, hp hn₀ hpar₀, hm.chainAt_eq hpn]

end Placed

section Mirror

/-- The tree is the union of what the workers hold. -/
structure Mirror (parents : BlockHash → List BlockHash) (held : KvWorkerId → Finset BlockHash)
    (s : TreeState) : Prop where
  placed : s.Placed parents
  exact : ∀ {id n}, s.nodes.lookup id = some n → id ≠ rootId →
    ∀ w, w ∈ n.workers ↔ n.blockHash ∈ held w
  present : ∀ {w h}, h ∈ held w → ∃ id n, s.nodes.lookup id = some n ∧ id ≠ rootId ∧ n.blockHash = h
  closed : ∀ {w h p}, h ∈ held w → p ∈ (parents h).getLast? → p ∈ held w

theorem Mirror.trim (hm : Mirror parents held s) (ht : Trim keep s s') (hs' : s'.Linked)
    (hk : ∀ {id n w}, s.nodes.lookup id = some n → id ≠ rootId →
      (n.blockHash ∈ held' w ↔ n.blockHash ∈ held w ∧ keep id w)) (hsub : ∀ w, held' w ⊆ held w)
    (hclosed : ∀ {w h p}, h ∈ held' w → p ∈ (parents h).getLast? → p ∈ held' w) :
    Mirror parents held' s' where
  placed := hm.placed.trim ht hs'
  exact hn' hne w := by
    obtain ⟨n, hn, hhash, -, hiff⟩ := ht.came hn'
    rw [hiff, hhash, hk hn hne, hm.exact hn hne]
  present {w h} hh := by
    obtain ⟨id, n, hn, hne, rfl⟩ := hm.present (hsub w hh)
    obtain ⟨hold, hkeep⟩ := (hk hn hne).mp hh
    obtain ⟨n', hn'⟩ := ht.stays hn ((hm.exact hn hne w).mpr hold) hkeep
    obtain ⟨n₀, hn₀, hhash, -⟩ := ht.came hn'
    cases hn.symm.trans hn₀
    exact ⟨id, n', hn', hne, hhash⟩
  closed := hclosed

theorem Mirror.mark (hmir : Mirror parents held s) (hs : s.Linked) (hm : Marked w h cur id s s')
    (hcur : s.nodes.lookup cur = some cn) (hpos : parents h = s.chainAt parents cur)
    (hpar : ∀ p ∈ (parents h).getLast?, p ∈ held w)
    (hheld : ∀ w' h', h' ∈ held' w' ↔ h' ∈ held w' ∨ (w' = w ∧ h' = h)) :
    Mirror parents held' s' := by
  have hplaced := hmir.placed.mark hs hm hcur hpos
  obtain ⟨nid, hnid, hnidh, -⟩ := core_eq_some.mp hm.self
  have hne := hm.ne_root
  -- the node that was marked is the only one for its hash
  have honly : ∀ {i n}, s'.nodes.lookup i = some n → i ≠ rootId → n.blockHash = h → i = id :=
    fun hn hi hh => hplaced.unique hm.tidy.toLinked hn hnid hi hne (hh.trans hnidh.symm)
  refine ⟨hplaced, fun {i n} hn hi w' => ?_, fun {w' h'} hh => ?_, fun {w' h' p} hh hp => ?_⟩
  · rw [hheld]
    rcases hm.came hn with ⟨rfl, rfl, -, hwork⟩ | ⟨hdiff, n₀, hn₀, hhash, -, hwork⟩
    · have hold : w' ∈ s.workersAt i ↔ n.blockHash ∈ held w' := by
        rw [mem_workersAt]
        constructor
        · rintro ⟨n₀, hn₀, hw'⟩
          exact (hm.old hn₀).1 ▸ (hmir.exact hn₀ hi w').mp hw'
        intro hh
        obtain ⟨j, m, hm₀, hj, hmh⟩ := hmir.present hh
        obtain ⟨m', hm', hmh', -⟩ := hm.stays hm₀
        obtain rfl := honly hm' hj (hmh'.trans hmh)
        exact ⟨m, hm₀, (hmir.exact hm₀ hj w').mpr (hmh ▸ hh)⟩
      rw [hwork, Finset.mem_insert, hold]
      simp [or_comm]
    · have hnot : n₀.blockHash ≠ h := fun heq => hdiff (honly hn hi (hhash.trans heq))
      rw [hwork, hhash, hmir.exact hn₀ hi]
      simp [hnot]
  · rcases (hheld w' h').mp hh with hh | ⟨rfl, rfl⟩
    · obtain ⟨j, m, hm₀, hj, hmh⟩ := hmir.present hh
      obtain ⟨m', hm', hmh', -⟩ := hm.stays hm₀
      exact ⟨j, m', hm', hj, hmh'.trans hmh⟩
    · exact ⟨id, nid, hnid, hne, hnidh⟩
  · rw [hheld]
    rcases (hheld w' h').mp hh with hh | ⟨rfl, rfl⟩
    · exact .inl (hmir.closed hh hp)
    · exact .inl (hpar p hp)

theorem getLast?_chainAt (hn : s.nodes.lookup id = some n) (hne : id ≠ rootId) :
    (s.chainAt parents id).getLast? = some n.blockHash := by
  rw [chainAt_of_ne hn hne, getLast?_concat]

/-- Every node below the root has a worker: a leaf because the tree is tidy, and
another node because a worker of a child holds its block too.  The induction goes
down the tree, along which the ids grow. -/
theorem Mirror.exists_worker (hmir : Mirror parents held s) (hs : s.Tidy)
    (hn : s.nodes.lookup id = some n) (hne : id ≠ rootId) : ∃ w, w ∈ n.workers := by
  induction hk : s.nextId - id using Nat.strong_induction_on generalizing id n with
  | _ k ih =>
    by_cases hleaf : n.children = ∅
    · by_contra hnone
      have hempty : n.workers = ∅ := eq_empty_of_forall_notMem fun w hw => hnone ⟨w, hw⟩
      exact hs.tidy id ⟨hne, n, hn, prunable_iff.mpr ⟨hempty, hleaf⟩⟩
    obtain ⟨h, c, hc⟩ := exists_lookup hleaf
    obtain ⟨m, hm, hpar, -⟩ := hs.down hn hc
    have hcne := hs.toLinked.ne_root_of_parent hpar hm
    obtain ⟨-, -, -, hlt⟩ := hs.toLinked.parent_link hm hpar
    have hless : s.nextId - c < k := hk ▸ Nat.sub_lt_sub_left (hlt.trans (hs.fresh hm)) hlt
    obtain ⟨w, hw⟩ := ih _ hless hm hcne rfl
    have hheld := (hmir.exact hm hcne w).mp hw
    have hlast : n.blockHash ∈ (parents m.blockHash).getLast? := by
      rw [hmir.placed hm hpar, getLast?_chainAt hn hne]
      rfl
    exact ⟨w, (hmir.exact hn hne w).mpr (hmir.closed hheld hlast)⟩

end Mirror

section Streams

variable {prev : Option BlockHash}

theorem Linked.resolveParent_mem (hs : s.Linked) (parentHash : Option BlockHash) :
    s.resolveParent order w parentHash ∈ s.nodes := by
  obtain ⟨r, hr, -⟩ := hs.root
  have hroot : rootId ∈ s.nodes := mem_of_lookup_eq_some hr
  unfold resolveParent
  split
  · exact hroot
  split
  · exact hroot
  rename_i ph _ cands hcands
  have hmem : ∀ i ∈ order.visit cands, i ∈ s.nodes := by
    intro i hi
    have hi : i ∈ s.indexed ph := by
      rw [indexed, hcands]
      exact (order.mem_visit cands i).mp hi
    obtain ⟨-, n, hn, -⟩ := (hs.index ph i).mp hi
    exact mem_of_lookup_eq_some hn
  split
  · cases hvisit : order.visit cands with
    | nil => exact hroot
    | cons i rest => exact hmem i (hvisit ▸ mem_cons_self)
  · cases hfind : (order.visit cands).find? _ with
    | none => exact hroot
    | some i => exact hmem i (mem_of_find?_eq_some hfind)

/-- The blocks that a chain of insertions adds to what a worker holds. -/
def addHeld (held : KvWorkerId → Finset BlockHash) (w : KvWorkerId) (hashes : List BlockHash)
    (w' : KvWorkerId) : Finset BlockHash :=
  if w = w' then held w' ∪ hashes.toFinset else held w'

theorem mem_addHeld {h' : BlockHash} :
    h' ∈ addHeld held w hashes w' ↔ h' ∈ held w' ∨ (w' = w ∧ h' ∈ hashes) := by
  rw [addHeld]
  split_ifs with hw
  · simp [hw]
  · simp [Ne.symm hw]

theorem addHeld_cons : addHeld held w (h :: hashes) = addHeld (addHeld held w [h]) w hashes := by
  ext w' h'
  simp only [mem_addHeld, List.mem_cons]
  tauto

theorem addHeld_nil : addHeld held w [] = held := by
  ext w' h'
  simp [mem_addHeld]

theorem mem_addHeld_singleton (w' : KvWorkerId) (h' : BlockHash) :
    h' ∈ addHeld held w [h] w' ↔ h' ∈ held w' ∨ (w' = w ∧ h' = h) := by
  rw [mem_addHeld, List.mem_singleton]

/-- `insert` from a node that is there, by induction on the blocks: every iteration
goes down to a child. -/
theorem Tidy.insertLoop (hs : s.Tidy) (hsound : s.Sound held)
    (hcur : s.nodes.lookup cur = some cn) : (insertLoop w now s cur prev hashes).Tidy ∧
      (insertLoop w now s cur prev hashes).Sound (addHeld held w hashes) := by
  induction hashes generalizing s cur cn prev held with
  | nil => exact ⟨hs, by rw [addHeld_nil]; exact hsound⟩
  | cons h hashes ih =>
    obtain ⟨id, s₁, hstep, hmark⟩ := hs.insertStep w now prev h hcur
    obtain ⟨n, hn, -⟩ := core_eq_some.mp hmark.self
    rw [insertLoop, hstep, addHeld_cons]
    exact ih hmark.tidy (hsound.mark hmark mem_addHeld_singleton) hn

theorem Mirror.insertLoop (hmir : Mirror parents held s) (hs : s.Tidy)
    (hcur : s.nodes.lookup cur = some cn) (hpos : Positioned parents (s.chainAt parents cur) hashes)
    (hheld : ∀ p ∈ (s.chainAt parents cur).getLast?, p ∈ held w) :
    Mirror parents (addHeld held w hashes) (insertLoop w now s cur prev hashes) := by
  induction hashes generalizing s cur cn prev held with
  | nil =>
    rwa [addHeld_nil]
  | cons h hashes ih =>
    obtain ⟨id, s₁, hstep, hmark⟩ := hs.insertStep w now prev h hcur
    obtain ⟨n, hn, hhash, -⟩ := core_eq_some.mp hmark.self
    obtain ⟨hposh, hrest⟩ := hpos
    have hchain : s₁.chainAt parents id = s.chainAt parents cur ++ [h] := by
      rw [chainAt_of_ne hn hmark.ne_root, hhash, hposh]
    rw [insertLoop, hstep, addHeld_cons]
    refine ih (hmir.mark hs.toLinked hmark hcur hposh (hposh ▸ hheld) mem_addHeld_singleton)
      hmark.tidy hn (hchain ▸ hrest) fun p hp => ?_
    rw [hchain, getLast?_concat] at hp
    rw [mem_addHeld_singleton]
    exact .inr ⟨rfl, (some.inj hp).symm⟩

theorem headD_visit (id d : NodeId) : (order.visit {id}).headD d = id := by
  cases hvisit : order.visit {id} with
  | nil =>
    have hmem := (order.mem_visit {id} id).mpr (Finset.mem_singleton_self id)
    rw [hvisit] at hmem
    cases hmem
  | cons i rest =>
    have hmem : i ∈ order.visit {id} := hvisit ▸ mem_cons_self
    exact Finset.mem_singleton.mp ((order.mem_visit _ _).mp hmem)

/-- A block whose parent the worker holds is attached to the one node of that parent. -/
theorem Mirror.resolveParent (hmir : Mirror parents held s) (hs : s.Linked) (order : IterOrder NodeId)
    (parentHash : Option BlockHash) (hheld : ∀ p ∈ parentHash, p ∈ held w) :
    s.chainAt parents (s.resolveParent order w parentHash) = chainOf parents parentHash := by
  cases parentHash with
  | none => exact chainAt_root
  | some ph =>
    obtain ⟨id, n, hn, hne, rfl⟩ := hmir.present (hheld ph rfl)
    have hsingle : s.indexed n.blockHash = {id} := by
      ext i
      rw [hs.index, Finset.mem_singleton]
      constructor
      · rintro ⟨hi, m, hm, hmh⟩
        exact hmir.placed.unique hs hm hn hi hne hmh
      · rintro rfl
        exact ⟨hne, n, hn, rfl⟩
    have hlook : s.byHash.lookup n.blockHash = some {id} := by
      unfold indexed at hsingle
      cases hcands : s.byHash.lookup n.blockHash <;> rw [hcands] at hsingle
      · exact absurd hsingle.symm (singleton_ne_empty id)
      · exact congrArg some hsingle
    rw [TreeState.resolveParent, hlook]
    dsimp only
    rw [if_pos (card_singleton id), headD_visit, chainAt_of_ne hn hne]
    rfl

end Streams

section Match

variable {path : List BlockHash}

def nodeAt (s : TreeState) : NodeId → List BlockHash → Option NodeId
  | cur, [] => some cur
  | cur, h :: hs => (s.childOf cur h).bind fun id => s.nodeAt id hs

theorem nodeAt_concat : s.nodeAt cur (path ++ [h]) = (s.nodeAt cur path).bind (s.childOf · h) := by
  induction path generalizing cur with
  | nil => simp [nodeAt]
  | cons h' path ih =>
    rw [cons_append, nodeAt, nodeAt, bind_assoc]
    simp only [ih]

theorem childOf_modify (hf : KeepsLinks f) : (s.modify id f).childOf i h = s.childOf i h := by
  rw [childOf, childOf, lookup_modify]
  split
  · cases s.nodes.lookup i with
    | none => rfl
    | some n => simp [(hf n).2.2]
  · rfl

theorem nodeAt_modify (hf : KeepsLinks f) :
    (s.modify id f).nodeAt cur path = s.nodeAt cur path := by
  induction path generalizing cur with
  | nil => rfl
  | cons h path ih =>
    rw [nodeAt, nodeAt, childOf_modify hf]
    simp only [ih]

structure Looked (s s' : TreeState) : Prop where
  tidy : s'.Tidy
  trim : Trim (fun _ _ => True) s s'
  workers : ∀ i, s'.workersAt i = s.workersAt i

theorem Tidy.touch (hs : s.Tidy) : Looked s (s.touch now id) := by
  have hkeeps : KeepsLinks fun n => { n with lastUsed := now } := fun _ => ⟨rfl, rfl, rfl⟩
  refine ⟨⟨hs.toLinked.modify hkeeps, fun i hi => ?_⟩, ?_, fun i => ?_⟩
  · obtain ⟨hroot, n, hn, hprune⟩ := hi
    rw [TreeState.touch, lookup_modify] at hn
    split at hn
    · obtain ⟨n₀, hn₀, rfl⟩ := map_eq_some_iff.mp hn
      exact hs.tidy i ⟨hroot, n₀, hn₀, hprune⟩
    · exact hs.tidy i ⟨hroot, n, hn, hprune⟩
  · have htrim : Trim (fun i _ => i = id → True) s (s.touch now id) := trim_modify hkeeps (by simp)
    exact htrim.congr (by simp)
  · rw [TreeState.touch, workersAt, workersAt, lookup_modify]
    split
    · cases s.nodes.lookup i <;> rfl
    · rfl

/-- The loop of `match_prefix` goes down as far as the blocks lead, by induction on
the blocks. -/
theorem Tidy.matchLoop (hs : s.Tidy) (now : ℕ) (cur : NodeId) (m : ℕ) (last : Option NodeId)
    (hashes : List BlockHash) :
    ∃ s' n id, matchLoop now s cur m last hashes = (s', m + n, if n = 0 then last else some id) ∧
      Looked s s' ∧ n ≤ hashes.length ∧ s.nodeAt cur (hashes.take n) = some id ∧
      ∀ k, n < k → k ≤ hashes.length → s.nodeAt cur (hashes.take k) = none := by
  induction hashes generalizing s cur m last with
  | nil =>
    refine ⟨s, 0, cur, rfl, ⟨hs, .refl s, fun _ => rfl⟩, le_rfl, rfl, fun k hk hle => ?_⟩
    exact absurd hle (by simpa using hk.ne')
  | cons h hashes ih =>
    rw [matchLoop]
    cases hchild : s.childOf cur h with
    | none =>
      refine ⟨s, 0, cur, rfl, ⟨hs, .refl s, fun _ => rfl⟩, Nat.zero_le _, rfl, fun k hk _ => ?_⟩
      obtain ⟨k, rfl⟩ := Nat.exists_eq_succ_of_ne_zero hk.ne'
      rw [take_succ_cons, nodeAt, hchild, bind_none]
    | some c =>
      have htouch : Looked s (s.touch now c) := hs.touch
      have hsame : ∀ path, (s.touch now c).nodeAt c path = s.nodeAt c path :=
        fun path => nodeAt_modify fun _ => ⟨rfl, rfl, rfl⟩
      obtain ⟨s', n, id, heq, hlooked, hle, hnode, hmax⟩ := ih htouch.tidy c (m + 1) (some c)
      refine ⟨s', n + 1, id, ?_, ?_, Nat.succ_le_succ hle, ?_, fun k hk hkle => ?_⟩
      · dsimp only
        rw [heq, if_neg (Nat.succ_ne_zero n), Nat.add_right_comm, Nat.add_assoc m n 1]
        cases n with
        | zero => simpa [nodeAt] using hnode
        | succ n => rfl
      · exact ⟨hlooked.tidy, (htouch.trim.trans hlooked.trim).congr (by simp),
          fun i => (hlooked.workers i).trans (htouch.workers i)⟩
      · rw [take_succ_cons, nodeAt, hchild, bind_some, ← hsame, hnode]
      · obtain ⟨k, rfl⟩ := Nat.exists_eq_succ_of_ne_zero (Nat.ne_zero_of_lt hk)
        rw [take_succ_cons, nodeAt, hchild, bind_some, ← hsame]
        exact hmax k (Nat.lt_of_succ_lt_succ hk) (Nat.le_of_succ_le_succ hkle)

theorem Tidy.matchPrefix_root (hs : s.Tidy) (order : IterOrder NodeId) (now : ℕ) (hashes : List BlockHash) :
    let r := s.matchPrefix order now none hashes
    ∃ id, r.2.matchedBlocks ≤ hashes.length ∧
      s.nodeAt rootId (hashes.take r.2.matchedBlocks) = some id ∧
      (∀ k, r.2.matchedBlocks < k → k ≤ hashes.length → s.nodeAt rootId (hashes.take k) = none) ∧
      r.2.workers = if r.2.matchedBlocks = 0 then ∅ else s.workersAt id := by
  obtain ⟨s', n, id, heq, hlooked, hle, hnode, hmax⟩ := hs.matchLoop now rootId 0 none hashes
  simp only [matchPrefix, matchStart, heq, zero_add]
  refine ⟨id, hle, hnode, hmax, ?_⟩
  split
  · rfl
  · exact hlooked.workers id

theorem Tidy.matchPrefix_looked (hs : s.Tidy) (order : IterOrder NodeId) (now : ℕ)
    (parentHash : Option BlockHash) (hashes : List BlockHash) :
    Looked s (s.matchPrefix order now parentHash hashes).1 := by
  obtain ⟨s', n, id, heq, hlooked, -⟩ :=
    hs.matchLoop now (s.matchStart order parentHash) 0 none hashes
  rwa [matchPrefix, heq]

theorem Linked.hash_of_nodeAt (hs : s.Linked) (hnode : s.nodeAt cur (path ++ [h]) = some id) :
    ∃ n, s.nodes.lookup id = some n ∧ id ≠ rootId ∧ n.blockHash = h := by
  rw [nodeAt_concat] at hnode
  obtain ⟨j, -, hchild⟩ := bind_eq_some_iff.mp hnode
  obtain ⟨m, hm, hlink⟩ := bind_eq_some_iff.mp hchild
  obtain ⟨n, hn, hpar, hhash⟩ := hs.down hm hlink
  exact ⟨n, hn, hs.ne_root_of_parent hpar hn, hhash⟩

theorem Placed.chainAt_of_nodeAt (hp : s.Placed parents) (hs : s.Linked)
    (hnode : s.nodeAt rootId path = some id) :
    s.chainAt parents id = path ∧ Positioned parents [] path ∧ id ∈ s.nodes := by
  induction path using reverseRecOn generalizing id with
  | nil =>
    cases hnode
    obtain ⟨r, hr, -⟩ := hs.root
    exact ⟨chainAt_root, trivial, mem_of_lookup_eq_some hr⟩
  | append_singleton path h ih =>
    rw [nodeAt_concat] at hnode
    obtain ⟨j, hj, hchild⟩ := bind_eq_some_iff.mp hnode
    obtain ⟨hchain, hpos, -⟩ := ih hj
    obtain ⟨m, hm, hlink⟩ := bind_eq_some_iff.mp hchild
    obtain ⟨n, hn, hpar, hhash⟩ := hs.down hm hlink
    have hparents : parents h = path := by rw [← hhash, hp hn hpar, hchain]
    refine ⟨?_, positioned_append.mpr ⟨hpos, hparents, trivial⟩, mem_of_lookup_eq_some hn⟩
    rw [chainAt_of_ne hn (hs.ne_root_of_parent hpar hn), hhash, hparents]

variable (hmir : Mirror parents held s)
include hmir

theorem Mirror.holds_of_last (hpos : Positioned parents [] (path ++ [h])) (hh : h ∈ held w) :
    ∀ h' ∈ path ++ [h], h' ∈ held w := by
  induction path using reverseRecOn generalizing h with
  | nil =>
    intro h' hh'
    rw [nil_append, List.mem_singleton] at hh'
    rwa [hh']
  | append_singleton path g ih =>
    obtain ⟨hpath, hparents, -⟩ := positioned_append.mp hpos
    have hg : g ∈ (parents h).getLast? := by
      rw [hparents, nil_append, getLast?_concat]
      rfl
    intro h' hh'
    rcases mem_append.mp hh' with hh' | hh'
    · exact ih hpath (hmir.closed hh hg) h' hh'
    · rwa [List.mem_singleton.mp hh']

theorem Mirror.nodeAt_of_holds (hs : s.Linked) (hpath : HoldsPath parents (held w) path) :
    ∃ id, s.nodeAt rootId path = some id := by
  induction path using reverseRecOn with
  | nil => exact ⟨rootId, rfl⟩
  | append_singleton path h ih =>
    obtain ⟨hpos, hmem⟩ := hpath
    obtain ⟨hpos, hparents, -⟩ := positioned_append.mp hpos
    obtain ⟨j, hj⟩ := ih ⟨hpos, fun h' hh' => hmem h' (mem_append_left _ hh')⟩
    obtain ⟨hchain, -, hjmem⟩ := hmir.placed.chainAt_of_nodeAt hs hj
    obtain ⟨m, hm⟩ := mem_iff.mp hjmem
    obtain ⟨id, n, hn, hne, rfl⟩ := hmir.present (hmem h (mem_append_right _ mem_cons_self))
    obtain ⟨p, pn, hpar, hpn, hlink, -⟩ := hs.up hn hne
    have hsame : p = j := by
      refine hmir.placed.node_eq hs hpn hm ?_
      rw [← hmir.placed hn hpar, hchain, hparents, nil_append]
    subst hsame
    refine ⟨id, ?_⟩
    rw [nodeAt_concat, hj, bind_some, childOf_of_lookup hpn, hlink]

theorem Mirror.workersAt_iff (hs : s.Linked) (hne : path ≠ [])
    (hnode : s.nodeAt rootId path = some id) :
    w ∈ s.workersAt id ↔ HoldsPath parents (held w) path := by
  obtain ⟨path, h, rfl⟩ : ∃ init h, path = init ++ [h] := ⟨_, _, (dropLast_append_getLast hne).symm⟩
  obtain ⟨n, hn, hroot, rfl⟩ := hs.hash_of_nodeAt hnode
  obtain ⟨-, hpos, -⟩ := hmir.placed.chainAt_of_nodeAt hs hnode
  rw [workersAt_of_lookup hn, hmir.exact hn hroot]
  constructor
  · exact fun hh => ⟨hpos, hmir.holds_of_last hpos hh⟩
  · exact fun hpath => hpath.2 _ (mem_append_right _ mem_cons_self)

end Match

section Runs

variable {start : ℕ} {e : Event}
variable {calls : List Call} {c : Call}

theorem replay_concat (calls : List Call) (c : Call) (w : KvWorkerId) :
    replay (calls ++ [c]) w = c.op.replay w (replay calls w) := by
  rw [replay, foldl_append]
  rfl

theorem run_concat : run start (calls ++ [c]) = (run start calls).step c := by
  rw [run, foldl_append]
  rfl

theorem of_lookup_new (hn : (new now).nodes.lookup id = some n) :
    id = rootId ∧ n.parent = none ∧ n.children = ∅ := by
  by_cases hi : id = rootId
  · subst hi
    rw [new, lookup_insert] at hn
    cases hn
    exact ⟨rfl, rfl, rfl⟩
  · rw [new, lookup_insert_of_ne _ hi, lookup_empty] at hn
    cases hn

theorem tidy_new (now : ℕ) : (new now).Tidy := by
  refine ⟨⟨⟨_, lookup_insert _, rfl⟩, fun hn hne => absurd (of_lookup_new hn).1 hne, ?_, ?_, ?_, ?_⟩, ?_⟩
  · intro p pn h id hpn hchild
    rw [(of_lookup_new hpn).2.2, lookup_empty] at hchild
    cases hchild
  · intro h id
    constructor
    · intro hid
      simp [indexed, new] at hid
    · rintro ⟨hne, n, hn, -⟩
      exact absurd (of_lookup_new hn).1 hne
  · intro h
    simp [new]
  · intro id n hn
    rw [(of_lookup_new hn).1]
    exact zero_lt_one
  · rintro id ⟨hne, n, hn, -⟩
    exact hne (of_lookup_new hn).1

theorem mem_replay_removed :
    h ∈ (Op.event w (.blockRemoved hashes)).replay w' X ↔ h ∈ X ∧ (h ∈ hashes → w' ≠ w) := by
  rw [Op.replay]
  split <;> rename_i hw
  · simp [Event.apply, hw]
  · simp [Ne.symm hw]

theorem mem_replay_cleared : h ∈ (Op.event w .allBlocksCleared).replay w' X ↔ h ∈ X ∧ w' ≠ w := by
  rw [Op.replay]
  split <;> rename_i hw
  · simp [Event.apply, hw]
  · simp [Ne.symm hw]

theorem Tidy.event (hs : s.Tidy) (hsound : s.Sound held) : (s.event order now w e).Tidy ∧
    (s.event order now w e).Sound fun w' => (Op.event w e).replay w' (held w') := by
  cases e with
  | blockStored parentHash hashes =>
    obtain ⟨n, hn⟩ := mem_iff.mp (hs.toLinked.resolveParent_mem parentHash)
    exact hs.insertLoop hsound hn
  | blockRemoved hashes =>
    obtain ⟨htidy, htrim⟩ := hs.removeAll (s.removeTargets order hashes)
    refine ⟨htidy, hsound.trim htrim fun {id n w'} hn hne _ hkeep hheld => ?_⟩
    rw [hs.toLinked.mem_removeTargets order hashes hn hne] at hkeep
    exact mem_replay_removed.mpr ⟨hheld, hkeep⟩
  | allBlocksCleared =>
    obtain ⟨htidy, htrim⟩ := hs.clearWorker order
    refine ⟨htidy, hsound.trim htrim fun {id n w'} hn hne _ hkeep hheld => ?_⟩
    exact mem_replay_cleared.mpr ⟨hheld, hkeep (mem_of_lookup_eq_some hn) hne⟩

theorem Tidy.step (hs : s.Tidy) (hsound : s.Sound held) : (s.step c).Tidy ∧
    (s.step c).Sound fun w => c.op.replay w (held w) := by
  obtain ⟨op, now, order⟩ := c
  cases op with
  | event worker e => exact hs.event hsound
  | matchPrefix parentHash hashes =>
    have hlooked := hs.matchPrefix_looked order now parentHash hashes
    exact ⟨hlooked.tidy, hsound.trim hlooked.trim fun _ _ _ _ hheld => hheld⟩
  | evictLru maxSize =>
    obtain ⟨htidy, keep, htrim⟩ := hs.evictLru order maxSize
    exact ⟨htidy, hsound.trim htrim fun _ _ _ _ hheld => hheld⟩

theorem run_tidy (start : ℕ) (calls : List Call) :
    (run start calls).Tidy ∧ (run start calls).Sound (replay calls) := by
  induction calls using reverseRecOn with
  | nil =>
    exact ⟨tidy_new start, fun id n w hn hne _ => absurd (of_lookup_new hn).1 hne⟩
  | append_singleton calls c ih =>
    have hreplay := funext (replay_concat calls c)
    rw [run_concat, hreplay]
    exact ih.1.step ih.2

theorem Mirror.event (hmir : Mirror parents held s) (hs : s.Tidy)
    (hpos : ∀ parentHash hashes, e = .blockStored parentHash hashes →
      Positioned parents (chainOf parents parentHash) hashes) (hord : e.Orderly parents (held w)) :
    Mirror parents (fun w' => (Op.event w e).replay w' (held w')) (s.event order now w e) := by
  cases e with
  | blockStored parentHash hashes =>
    by_cases hnil : hashes = []
    · subst hnil
      have hsame : (fun w' => (Op.event w (.blockStored parentHash [])).replay w' (held w')) = held :=
        addHeld_nil
      rwa [hsame]
    have hheld := hord hnil
    have hchain := hmir.resolveParent hs.toLinked order parentHash hheld
    obtain ⟨n, hn⟩ := mem_iff.mp (hs.toLinked.resolveParent_mem parentHash)
    refine hmir.insertLoop hs hn (hchain ▸ hpos _ _ rfl) fun p hp => ?_
    rw [hchain] at hp
    cases parentHash with
    | none => cases hp
    | some ph =>
      rw [chainOf, getLast?_concat] at hp
      exact hheld p hp
  | blockRemoved hashes =>
    obtain ⟨htidy, htrim⟩ := hs.removeAll (s.removeTargets order hashes)
    refine hmir.trim htrim htidy.toLinked (fun {id n w'} hn hne => ?_)
      (fun w' h hh => (mem_replay_removed.mp hh).1) fun {w' h p} hh hp => ?_
    · rw [mem_replay_removed, hs.toLinked.mem_removeTargets order hashes hn hne]
    obtain ⟨hheld, hkeep⟩ := mem_replay_removed.mp hh
    refine mem_replay_removed.mpr ⟨hmir.closed hheld hp, fun hph hw => ?_⟩
    subst hw
    exact hord h hheld (fun hin => hkeep hin rfl) p hp hph
  | allBlocksCleared =>
    obtain ⟨htidy, htrim⟩ := hs.clearWorker order
    refine hmir.trim htrim htidy.toLinked (fun {id n w'} hn hne => ?_)
      (fun w' h hh => (mem_replay_cleared.mp hh).1) fun {w' h p} hh hp => ?_
    · rw [mem_replay_cleared]
      simp [mem_of_lookup_eq_some hn, hne]
    · obtain ⟨hheld, hw⟩ := mem_replay_cleared.mp hh
      exact mem_replay_cleared.mpr ⟨hmir.closed hheld hp, hw⟩

theorem run_mirror (hpos : PositionUnique parents calls) (hord : Orderly parents calls)
    (hevict : NoEviction calls) : Mirror parents (replay calls) (run start calls) := by
  induction calls using reverseRecOn with
  | nil =>
    refine ⟨fun id n p hn hpar => ?_, fun {id n} hn hne => absurd (of_lookup_new hn).1 hne,
      fun hh => absurd hh (notMem_empty _), fun hh => absurd hh (notMem_empty _)⟩
    rw [(of_lookup_new hn).2.1] at hpar
    cases hpar
  | append_singleton calls c ih =>
    have hmir := ih (fun c hc => hpos c (mem_append_left _ hc))
      (fun before c' after heq => hord before c' (after ++ [c]) (by simp [heq]))
      (fun c hc => hevict c (mem_append_left _ hc))
    have hlast : c ∈ calls ++ [c] := mem_append_right _ mem_cons_self
    have hposc := hpos c hlast
    have hordc := hord calls c [] rfl
    have hevictc := hevict c hlast
    have htidy := (run_tidy start calls).1
    have hreplay := funext (replay_concat calls c)
    rw [run_concat, hreplay]
    obtain ⟨op, now, order⟩ := c
    cases op with
    | event worker e =>
      exact hmir.event htidy (fun ph hs heq => hposc worker ph hs (by rw [heq])) (hordc worker e rfl)
    | matchPrefix parentHash hashes =>
      have hlooked := htidy.matchPrefix_looked order now parentHash hashes
      exact hmir.trim hlooked.trim hlooked.tidy.toLinked (fun _ _ => by simp [Op.replay])
        (fun _ => Finset.Subset.refl _) hmir.closed
    | evictLru maxSize => exact absurd rfl (hevictc maxSize)

end Runs

end TreeState

/-- The tree and the caches of the workers, after any interleaving of their events
with lookups and evictions: a listed worker holds the last matched block, the links
and the reverse index agree and every leaf has a worker, and without evictions and
with orderly streams a lookup finds the longest held chain and exactly the workers
that hold it. -/
theorem hashTree_mirrors_caches (start : ℕ) (calls : List Call) : let s := run start calls
    (∀ order now hs, ∀ w ∈ (s.matchPrefix order now none hs).2.workers,
      ∃ h ∈ hs[(s.matchPrefix order now none hs).2.matchedBlocks - 1]?, h ∈ replay calls w) ∧
    s.Tidy ∧ ∀ parents, PositionUnique parents calls → NoEviction calls → Orderly parents calls →
      ∀ order now hs, let n := (s.matchPrefix order now none hs).2.matchedBlocks
        let workers := (s.matchPrefix order now none hs).2.workers
        n ≤ hs.length ∧
        (∀ k w, k ≤ hs.length → HoldsPath parents (replay calls w) (hs.take k) → k ≤ n) ∧
        (0 < n → workers.Nonempty ∧
          ∀ w, w ∈ workers ↔ HoldsPath parents (replay calls w) (hs.take n)) ∧
        (n = 0 → workers = ∅) := by
  obtain ⟨htidy, hsound⟩ := run_tidy start calls
  refine ⟨fun order now hs w hw => ?_, htidy, fun parents hpos hevict hord order now hs => ?_⟩
  · obtain ⟨id, hle, hnode, -, hworkers⟩ := htidy.matchPrefix_root order now hs
    rw [hworkers] at hw
    split_ifs at hw with hpos
    · exact absurd hw (notMem_empty w)
    obtain ⟨k, hk⟩ := Nat.exists_eq_succ_of_ne_zero hpos
    rw [hk] at hle hnode ⊢
    rw [take_succ_eq_append_getElem hle] at hnode
    obtain ⟨n, hn, hne, hhash⟩ := htidy.toLinked.hash_of_nodeAt hnode
    rw [workersAt_of_lookup hn] at hw
    refine ⟨hs[k], ?_, hhash ▸ hsound hn hne hw⟩
    exact getElem?_eq_getElem hle
  have hmir : TreeState.Mirror parents (replay calls) (run start calls) :=
    run_mirror hpos hord hevict
  obtain ⟨id, hle, hnode, hmax, hworkers⟩ := htidy.matchPrefix_root order now hs
  refine ⟨hle, fun k w hk hholds => ?_, fun hn => ?_, fun hn => ?_⟩
  · by_contra hlt
    obtain ⟨id', hid'⟩ := hmir.nodeAt_of_holds htidy.toLinked hholds
    rw [hmax k (Nat.lt_of_not_le hlt) hk] at hid'
    cases hid'
  · have hpath : hs.take ((run start calls).matchPrefix order now none hs).2.matchedBlocks
        ≠ [] := by
      intro hnil
      have hlen := congrArg length hnil
      rw [length_take, length_nil] at hlen
      omega
    rw [if_neg hn.ne'] at hworkers
    rw [hworkers]
    refine ⟨?_, fun w => hmir.workersAt_iff htidy.toLinked hpath hnode⟩
    obtain ⟨hchain, -, hmem⟩ := hmir.placed.chainAt_of_nodeAt htidy.toLinked hnode
    have hroot : id ≠ rootId := by
      rintro rfl
      exact hpath (hchain.symm.trans chainAt_root)
    obtain ⟨n, hn'⟩ := mem_iff.mp hmem
    obtain ⟨w, hw⟩ := hmir.exists_worker htidy hn' hroot
    exact ⟨w, mem_workersAt.mpr ⟨n, hn', hw⟩⟩
  · rw [hworkers, if_pos hn]

/-- Two workers that share their first block; the first one drops its second block. -/
def twoStreams : List Call :=
  [⟨.event ⟨"http://a", 0⟩ (.blockStored none [1, 2]), 1, .ascending⟩,
   ⟨.event ⟨"http://b", 0⟩ (.blockStored none [1]), 2, .ascending⟩,
   ⟨.event ⟨"http://b", 0⟩ (.blockStored (some 1) [3]), 3, .ascending⟩,
   ⟨.event ⟨"http://a", 0⟩ (.blockRemoved [2]), 4, .ascending⟩]

def twoChains (h : BlockHash) : List BlockHash := if h = 1 then [] else [1]

theorem hashTree_mirrors_caches_twoStreams :
    let r := ((run 0 twoStreams).matchPrefix .ascending 5 none [1, 3, 4]).2
    r.matchedBlocks = 2 ∧ ∀ w, w ∈ r.workers ↔
      HoldsPath twoChains (replay twoStreams w) ([1, 3, 4].take r.matchedBlocks) := by
  have hmatched : ((run 0 twoStreams).matchPrefix .ascending 5 none
      [1, 3, 4]).2.matchedBlocks = 2 := by decide +kernel
  have hpos : PositionUnique twoChains twoStreams := by
    intro c hc worker parentHash hashes heq
    simp only [twoStreams, List.mem_cons, not_mem_nil, or_false] at hc
    rcases hc with rfl | rfl | rfl | rfl <;> cases heq <;> decide
  have hevict : NoEviction twoStreams := by
    intro c hc maxSize heq
    simp only [twoStreams, List.mem_cons, not_mem_nil, or_false] at hc
    rcases hc with rfl | rfl | rfl | rfl <;> cases heq
  have hord : Orderly twoChains twoStreams := by
    intro before c after heq worker e hop
    rcases before with _ | ⟨_, _ | ⟨_, _ | ⟨_, _ | ⟨_, before⟩⟩⟩⟩
    all_goals
      simp only [twoStreams, cons_append, nil_append, cons.injEq] at heq
    · obtain ⟨rfl, -⟩ := heq
      cases hop
      decide +kernel
    · obtain ⟨rfl, rfl, -⟩ := heq
      cases hop
      decide +kernel
    · obtain ⟨rfl, rfl, rfl, -⟩ := heq
      cases hop
      decide +kernel
    · obtain ⟨rfl, rfl, rfl, rfl, -⟩ := heq
      cases hop
      decide +kernel
    · simp at heq
  obtain ⟨-, -, hcomplete⟩ := hashTree_mirrors_caches 0 twoStreams
  obtain ⟨-, -, hworkers, -⟩ := hcomplete twoChains hpos hevict hord .ascending 5 [1, 3, 4]
  exact ⟨hmatched, (hworkers (by rw [hmatched]; decide)).2⟩

end SparkInfer.Router
