import SparkInfer.Radix.Operations

/-!
# Runs of a radix cache

The cache together with what its callers remember: the nodes they hold locks on
and the events they have taken.  A run is any sequence of calls in which a lock
is taken on a node of the tree and given back by somebody who holds it.
-/

namespace SparkInfer.Radix

open Lib Alloc RadixCache

variable {H B : Type} [DecidableEq B] {cfg : Config} {hf : HashFns H B}
variable {nodes : Finset NodeId} {op : Op} {allowed : Op → Prop}

structure Sys (H B : Type) where
  cache : RadixCache H B
  held : List NodeId
  taken : List (KVEvent B)

inductive Op
  | matchPrefix (key : RadixKey)
  | insert (key : RadixKey) (value : Option (List Int)) (priority : Int) (chunked : Bool)
  | incLockRef (node : NodeId)
  | decLockRef (node : NodeId)
  | evict (tie : List NodeId → Nat) (numTokens : Nat)
  | reset
  | takeEvents

namespace Sys

def init (cfg : Config) (counter : Nat) (allocator : Paged) : Sys H B :=
  { cache := .init cfg counter allocator, held := [], taken := [] }

def step (cfg : Config) (hf : HashFns H B) (s : Sys H B) : Op → Except PyError (Sys H B)
  | .matchPrefix key => do
    let (c, _) ← s.cache.matchPrefix cfg key
    pure { s with cache := c }
  | .insert key value priority chunked => do
    let (c, _) ← s.cache.insert cfg hf key value priority chunked
    pure { s with cache := c }
  | .incLockRef node => do
    let (c, _) ← s.cache.incLockRef cfg node
    pure { s with cache := c, held := node :: s.held }
  | .decLockRef node => do
    let (c, _) ← s.cache.decLockRef cfg node
    pure { s with cache := c, held := s.held.erase node }
  | .evict tie numTokens => do
    let (c, _) ← s.cache.evict cfg hf tie numTokens
    pure { s with cache := c }
  | .reset => .ok { s with cache := s.cache.reset cfg, held := [] }
  | .takeEvents =>
    let (events, r) := s.cache.kvEvents.take cfg.enableKvCacheEvents
    .ok { s with cache := { s.cache with kvEvents := r }, taken := s.taken ++ events }

/-- What callers promise. -/
def Legal (cfg : Config) (s : Sys H B) : Op → Prop
  | .insert key value _ _ => ValueFits cfg key value
  | .incLockRef node => InTree s.cache.tree.toSkeleton node
  | .decLockRef node => node ∈ s.held
  | _ => True

inductive ReachBy (cfg : Config) (hf : HashFns H B) (allowed : Op → Prop) : Sys H B → Prop
  | init (counter : Nat) (allocator : Paged) : ReachBy cfg hf allowed (init cfg counter allocator)
  | step {s s' : Sys H B} {op : Op} (h : ReachBy cfg hf allowed s) (legal : s.Legal cfg op)
      (hop : allowed op) (hstep : s.step cfg hf op = .ok s') : ReachBy cfg hf allowed s'

abbrev Reach (cfg : Config) (hf : HashFns H B) : Sys H B → Prop :=
  ReachBy cfg hf fun _ => True

end Sys

structure SysInv (cfg : Config) (hf : HashFns H B) (s : Sys H B) (nodes : Finset NodeId) :
    Prop where
  inv : Inv cfg hf s.cache nodes s.held
  disabled : cfg.disable = true → nodes = {s.cache.tree.rootNode}

/-! ## The edits behind a step -/

inductive StepEdit (cfg : Config) (hf : HashFns H B) (s : Sys H B) (nodes : Finset NodeId) :
    Op → Sys H B → Finset NodeId → Prop
  | noop {op : Op} (hop : op ≠ .reset ∧ op ≠ .takeEvents) {held : List NodeId}
      (hdis : cfg.disable = true)
      (hheld : ∀ n ∈ held, n ∈ nodes) :
      StepEdit cfg hf s nodes op { s with held := held } nodes
  | matched {key : RadixKey} {c : RadixCache H B} {nodes' : Finset NodeId} {n : NodeId}
      {l : List (Atom × Int)} (hen : cfg.disable = false)
      (hsplits : Splits cfg s.cache nodes c nodes')
      (hloc : (c.tree.trie nodes').Located cfg.pageSize (alignedKey cfg key).tagged n l) :
      StepEdit cfg hf s nodes (.matchPrefix key) { s with cache := c } nodes'
  | inserted {key : RadixKey} {value : Option (List Int)} {priority : Int} {chunked : Bool}
      {c₁ c : RadixCache H B} {nodes₁ nodes' : Finset NodeId} {n last : NodeId}
      {l : List (Atom × Int)} (hen : cfg.disable = false)
      (hsplits : Splits cfg s.cache nodes c₁ nodes₁)
      (hloc : (c₁.tree.trie nodes₁).Located cfg.pageSize (alignedKey cfg key).tagged n l)
      (hend : InsertEnd cfg hf c₁ nodes₁ (alignedKey cfg key).tagged (insertValue cfg key value)
        n l c nodes' last) :
      StepEdit cfg hf s nodes (.insert key value priority chunked) { s with cache := c } nodes'
  | locked {op : Op} {t : Tree} {held : List NodeId} (hen : cfg.disable = false)
      (hskel : t.toSkeleton = s.cache.tree.toSkeleton)
      (hinv : Inv cfg hf { s.cache with tree := t } nodes held)
      (hop : (∃ n, op = .incLockRef n) ∨ ∃ n, op = .decLockRef n) :
      StepEdit cfg hf s nodes op { s with cache := { s.cache with tree := t }, held := held } nodes
  | evicted {tie : List NodeId → Nat} {numTokens : Nat} {c : RadixCache H B}
      {nodes' : Finset NodeId} {xs : List NodeId} (hen : cfg.disable = false)
      (hdel : Deletes cfg hf s.cache nodes c nodes' xs) :
      StepEdit cfg hf s nodes (.evict tie numTokens) { s with cache := c } nodes'
  | reset : StepEdit cfg hf s nodes .reset { s with cache := s.cache.reset cfg, held := [] }
      {(s.cache.reset cfg).tree.rootNode}
  | taken : StepEdit cfg hf s nodes .takeEvents
      { s with
        cache := { s.cache with kvEvents := (s.cache.kvEvents.take cfg.enableKvCacheEvents).2 }
        taken := s.taken ++ (s.cache.kvEvents.take cfg.enableKvCacheEvents).1 } nodes

theorem SysInv.step_edit {s : Sys H B} (h : SysInv cfg hf s nodes) (legal : s.Legal cfg op) :
    ∃ s' nodes', s.step cfg hf op = .ok s' ∧ StepEdit cfg hf s nodes op s' nodes' := by
  cases hen : cfg.disable with
  | true =>
    cases op with
    | matchPrefix key =>
      refine ⟨s, nodes, ?_, .noop (by simp) hen h.inv.locked.held_mem⟩
      simp [Sys.step, RadixCache.matchPrefix, hen]
    | insert key value priority chunked =>
      refine ⟨s, nodes, ?_, .noop (by simp) hen h.inv.locked.held_mem⟩
      simp [Sys.step, RadixCache.insert, hen]
    | incLockRef n =>
      refine ⟨{ s with held := n :: s.held }, nodes, ?_, .noop (by simp) hen ?_⟩
      · simp [Sys.step, incLockRef, hen]
      intro x hx
      rcases List.mem_cons.mp hx with rfl | hx
      · exact h.inv.shape.inTree_iff.mp legal
      · exact h.inv.locked.held_mem x hx
    | decLockRef n =>
      refine ⟨{ s with held := s.held.erase n }, nodes, ?_, .noop (by simp) hen ?_⟩
      · simp [Sys.step, decLockRef, hen]
      · exact fun x hx => h.inv.locked.held_mem x (List.mem_of_mem_erase hx)
    | evict tie numTokens =>
      refine ⟨s, nodes, ?_, .noop (by simp) hen h.inv.locked.held_mem⟩
      simp [Sys.step, evict, hen]
    | reset => exact ⟨_, _, rfl, .reset⟩
    | takeEvents => exact ⟨_, _, rfl, .taken⟩
  | false =>
    cases op with
    | matchPrefix key =>
      obtain ⟨c, nodes', n, l, hrun, hsplits, hloc⟩ := matchPrefix_spec h.inv.shape hen key
      exact ⟨_, nodes', by simp [Sys.step, hrun], .matched hen hsplits hloc⟩
    | insert key value priority chunked =>
      obtain ⟨c₁, nodes₁, n, l, c, nodes', last, hrun, hsplits, hloc, hend⟩ :=
        insert_spec h.inv hen key value priority chunked legal
      exact ⟨_, nodes', by simp [Sys.step, hrun],
        .inserted hen hsplits hloc hend⟩
    | incLockRef n =>
      obtain ⟨t, delta, hrun, hskel, -, hinv⟩ :=
        incLockRef_spec h.inv hen (h.inv.shape.inTree_iff.mp legal)
      exact ⟨_, nodes, by simp [Sys.step, hrun],
        .locked hen hskel hinv (.inl ⟨n, rfl⟩)⟩
    | decLockRef n =>
      obtain ⟨t, delta, hrun, hskel, -, hinv⟩ := decLockRef_spec h.inv hen legal
      exact ⟨_, nodes, by simp [Sys.step, hrun],
        .locked hen hskel hinv (.inr ⟨n, rfl⟩)⟩
    | evict tie numTokens =>
      obtain ⟨c, nodes', xs, k, hrun, hdel, -, -⟩ := evict_spec h.inv hen tie numTokens
      exact ⟨_, nodes', by simp [Sys.step, hrun], .evicted hen hdel⟩
    | reset => exact ⟨_, _, rfl, .reset⟩
    | takeEvents => exact ⟨_, _, rfl, .taken⟩

theorem StepEdit.inv {s s' : Sys H B} {nodes' : Finset NodeId}
    (he : StepEdit cfg hf s nodes op s' nodes') (h : SysInv cfg hf s nodes) :
    SysInv cfg hf s' nodes' := by
  have henabled : ∀ {P : Prop}, cfg.disable = false → cfg.disable = true → P := by
    intro P h1 h2
    rw [h1] at h2
    cases h2
  cases he with
  | noop _ hdis hheld =>
    refine ⟨{ h.inv with locked := ⟨hheld, ?_⟩ }, h.disabled⟩
    intro n hn hne
    rw [h.disabled hdis] at hn
    exact absurd (Finset.mem_singleton.mp hn) hne
  | matched hen hsplits _ => exact ⟨hsplits.inv h.inv, henabled hen⟩
  | inserted hen hsplits hloc hend =>
    exact ⟨hend.inv (hsplits.inv h.inv) hloc.path, henabled hen⟩
  | locked hen _ hinv _ => exact ⟨hinv, henabled hen⟩
  | evicted hen hdel => exact ⟨hdel.inv h.inv, henabled hen⟩
  | reset => exact ⟨reset_spec _, fun _ => rfl⟩
  | taken =>
    refine ⟨{ h.inv with hashed := ?_ }, h.disabled⟩
    intro hen
    exact (h.inv.hashed hen).of_queue (by simp [Recorder.take, hen])
      (by simp [Recorder.take, hen])

theorem Sys.init_inv (counter : Nat) (allocator : Paged) :
    SysInv cfg hf (init cfg counter allocator)
      {(init (H := H) (B := B) cfg counter allocator).cache.tree.rootNode} :=
  ⟨reset_spec _, fun _ => rfl⟩

/-- Induction over runs: a property of the system and its tree nodes that holds
at the start and is kept by every effect of a call holds throughout. -/
theorem Sys.ReachBy.induct {P : Sys H B → Finset NodeId → Prop}
    (hinit : ∀ counter allocator, P (Sys.init cfg counter allocator)
      {(Sys.init (H := H) (B := B) cfg counter allocator).cache.tree.rootNode})
    (hstep : ∀ {s s' nodes nodes' op}, SysInv cfg hf s nodes → s.Legal cfg op → allowed op →
      P s nodes → StepEdit cfg hf s nodes op s' nodes' → P s' nodes')
    {s : Sys H B} (h : Sys.ReachBy cfg hf allowed s) : ∃ nodes, SysInv cfg hf s nodes ∧ P s nodes := by
  induction h with
  | init counter allocator => exact ⟨_, Sys.init_inv counter allocator, hinit counter allocator⟩
  | step _ legal hop hrun ih =>
    obtain ⟨nodes, hinv, hP⟩ := ih
    obtain ⟨s'', nodes', hrun', hedit⟩ := hinv.step_edit legal
    rw [hrun] at hrun'
    cases hrun'
    exact ⟨nodes', hedit.inv hinv, hstep hinv legal hop hP hedit⟩

theorem SysInv.step {s s' : Sys H B} (h : SysInv cfg hf s nodes) (legal : s.Legal cfg op)
    (hstep : s.step cfg hf op = .ok s') : ∃ nodes', SysInv cfg hf s' nodes' := by
  obtain ⟨s'', nodes', hrun, hedit⟩ := h.step_edit legal
  rw [hstep] at hrun
  cases hrun
  exact ⟨nodes', hedit.inv h⟩

theorem Sys.ReachBy.inv {s : Sys H B} (h : Sys.ReachBy cfg hf allowed s) :
    ∃ nodes, SysInv cfg hf s nodes := by
  obtain ⟨nodes, hinv, -⟩ := Sys.ReachBy.induct
    (fun _ _ => trivial) (fun _ _ _ _ _ => trivial) h
  exact ⟨nodes, hinv⟩

/-! ## A small system -/

/-- Page size one, least recently used first, no events. -/
def Config.small : Config where
  pageSize := 1
  pageSize_pos := Nat.one_pos
  isEagle := false
  disable := false
  disableFinishedInsert := false
  evictionPolicy := .lru
  enableKvCacheEvents := false
  monotonic := fun k => k

def HashFns.unit : HashFns Unit Unit where
  page := fun _ _ => ()
  salt := fun _ => ()
  toInt64 := id

def Sys.after (cfg : Config) (hf : HashFns H B) (s : Sys H B) (op : Op) : Sys H B :=
  match s.step cfg hf op with
  | .ok s' => s'
  | .error _ => s

def Op.fill (salt : Option String) : Op :=
  .insert (.new [1, 2] none false none salt) (some [11, 12]) 0 false

omit [DecidableEq B] in
theorem Op.fill_legal (s : Sys H B) (salt : Option String) (hps : cfg.pageSize = 1)
    (heagle : cfg.isEagle = false) : s.Legal cfg (.fill salt) := by
  intro v hv
  cases hv
  simp [alignedKey, RadixKey.maybeToBigramView, RadixKey.pageAligned, hps, heagle, RadixKey.len,
    RadixKey.rawLen, RadixKey.new]

def Sys.filled : Sys Unit Unit :=
  (init .small 0 (.new 8 1 false)).after .small .unit (.fill none)

theorem Sys.filled_reach : Sys.Reach .small .unit filled :=
  .step (.init 0 (.new 8 1 false)) (Op.fill_legal _ none rfl rfl) trivial rfl

end SparkInfer.Radix
