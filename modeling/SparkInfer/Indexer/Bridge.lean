import SparkInfer.Lib.Traverse
import Mathlib.Algebra.Ring.Nat
import Mathlib.Data.Finmap

/-!
# The bridge of the KV indexer

The bridge turns a batch of KV events of one worker into requests to the index.  Adjacent
stores of one tier become one action and so do adjacent removals; actions and batches that
are too long for the service are cut.  The index applies a store as a whole: of a hash that
it repeats only the last entry counts, and an entry without a size keeps the old size.
-/

namespace SparkInfer.Indexer

open Lib List

variable {events : List Event}
variable {worker : String} {s : State}

abbrev Hash := Int
abbrev Tier := Int

/-! ## The index -/

structure BlockRecord where
  tokenCount : Nat
  placements : Finmap fun _ : String × Tier => Nat

@[ext]
structure State where
  blocks : Hash → Option BlockRecord
  holdings : String → Tier → Finset Hash

inductive ActionType
  | report
  | revoke
  | clearAllAtTier
deriving DecidableEq

structure ExternalKvAction where
  type : ActionType
  tier : Tier
  hashes : List Hash
  componentMasks : List Nat
  blockSizes : List Nat

/-- The hashes with mask and token count; an array that is absent reads as zeros. -/
def ExternalKvAction.entries (a : ExternalKvAction) : List (Hash × Nat × Nat) :=
  a.hashes.mapIdx fun i h => (h, a.componentMasks.getD i 0, a.blockSizes.getD i 0)

def lastByHash (entries : List (Hash × Nat × Nat)) : Finmap fun _ : Hash => Nat × Nat :=
  entries.foldl (fun last e => last.insert e.1 e.2) ∅

section Index

variable (worker : String) (tier : Tier)

/-- The record of a block once the worker has it with the given mask and token count. -/
def record (old : Option BlockRecord) (entry : Nat × Nat) : BlockRecord :=
  let block := old.getD ⟨0, ∅⟩
  ⟨if 0 < entry.2 then entry.2 else block.tokenCount,
    block.placements.insert (worker, tier) entry.1⟩

def reportOne (s : State) (e : Hash × Nat × Nat) : State where
  blocks := Function.update s.blocks e.1 (some (record worker tier (s.blocks e.1) e.2))
  holdings w t := if w = worker ∧ t = tier then insert e.1 (s.holdings w t) else s.holdings w t

def revokeOne (s : State) (hash : Hash) : State where
  blocks := Function.update s.blocks hash ((s.blocks hash).bind fun block =>
    let placements := block.placements.erase (worker, tier)
    if placements = ∅ then none else some { block with placements := placements })
  holdings w t := if w = worker ∧ t = tier then (s.holdings w t).erase hash else s.holdings w t

/-- One action of `InMemoryKvIndexerBackend::apply`. -/
def applyAction (order : IterOrder Hash) (s : State) (a : ExternalKvAction) : State :=
  match a.type with
  | .report =>
    let last := lastByHash a.entries
    (order.visit last.keys).foldl
      (fun s hash => reportOne worker a.tier s (hash, (last.lookup hash).getD (0, 0))) s
  | .revoke => a.hashes.foldl (revokeOne worker a.tier) s
  | .clearAllAtTier =>
    (order.visit (s.holdings worker a.tier)).foldl (revokeOne worker a.tier) s

end Index

/-! ## The bridge -/

def maxHashesPerRequest : Nat := 16384

def maxActionsPerBatch : Nat := 256

inductive Event
  | stored (tier : Tier) (hashes : List Hash) (mask blockSize : Option Nat)
  | removed (tier : Tier) (hashes : List Hash)
  | cleared

/-- A report lists each hash with its mask and its block size. -/
inductive Action
  | report (tier : Tier) (entries : List (Hash × Option Nat × Option Nat))
  | revoke (tier : Tier) (hashes : List Hash)
  | clearAll

/-- `EventActions`, the newest action first, after one more event. -/
def push (actions : List Action) : Event → List Action
  | .stored tier hashes mask blockSize =>
    if hashes = [] then actions
    else
      match actions with
      | .report lastTier last :: rest =>
        if lastTier = tier then
          .report tier (last ++ hashes.map fun h => (h, mask, blockSize)) :: rest
        else .report tier (hashes.map fun h => (h, mask, blockSize)) :: actions
      | _ => .report tier (hashes.map fun h => (h, mask, blockSize)) :: actions
  | .removed tier hashes =>
    if hashes = [] then actions
    else
      match actions with
      | .revoke lastTier last :: rest =>
        if lastTier = tier then .revoke tier (last ++ hashes) :: rest
        else .revoke tier hashes :: actions
      | _ => .revoke tier hashes :: actions
  | .cleared => .clearAll :: actions

def eventActions (events : List Event) : List Action := (events.foldl push []).reverse

/-- `encode_component_masks` and `encode_block_sizes`. -/
def encode (values : List (Option Nat)) : List Nat :=
  if values.all Option.isNone then [] else values.map (·.getD 0)

/-- The actions that `build_apply_request` makes of one. -/
def build (clearTiers : List Tier) : Action → List ExternalKvAction
  | .report tier entries =>
    [⟨.report, tier, entries.map (·.1), encode (entries.map (·.2.1)), encode (entries.map (·.2.2))⟩]
  | .revoke tier hashes => [⟨.revoke, tier, hashes, [], []⟩]
  | .clearAll => clearTiers.map fun tier => ⟨.clearAllAtTier, tier, [], [], []⟩

def ExternalKvAction.slice (a : ExternalKvAction) (start n : Nat) : ExternalKvAction :=
  { a with
    hashes := (a.hashes.drop start).take n
    componentMasks := (a.componentMasks.drop start).take n
    blockSizes := (a.blockSizes.drop start).take n }

def splitAction (a : ExternalKvAction) : List ExternalKvAction :=
  if a.hashes.length ≤ maxHashesPerRequest then [a]
  else
    (range ((a.hashes.length + maxHashesPerRequest - 1) / maxHashesPerRequest)).map fun i =>
      a.slice (i * maxHashesPerRequest) maxHashesPerRequest

/-- The loop of `split_apply_request`: the batches, the current one and its hashes. -/
def splitStep (acc : List (List ExternalKvAction) × List ExternalKvAction × Nat)
    (a : ExternalKvAction) : List (List ExternalKvAction) × List ExternalKvAction × Nat :=
  let (batches, current, currentHashes) := acc
  if current ≠ [] ∧ (current.length = maxActionsPerBatch ∨
      maxHashesPerRequest < currentHashes + a.hashes.length) then
    (batches ++ [current], [a], a.hashes.length)
  else (batches, current ++ [a], currentHashes + a.hashes.length)

def splitApplyRequest (actions : List ExternalKvAction) : List (List ExternalKvAction) :=
  let (batches, current, _) := (actions.flatMap splitAction).foldl splitStep ([], [], 0)
  if current = [] then batches else batches ++ [current]

def requests (clearTiers : List Tier) (events : List Event) : List (List ExternalKvAction) :=
  splitApplyRequest ((eventActions events).flatMap (build clearTiers))

def applyAll (order : IterOrder Hash) (worker : String) (s : State)
    (requests : List (List ExternalKvAction)) : State :=
  requests.foldl (fun s actions => actions.foldl (applyAction worker order) s) s

def ValidTier (tier : Tier) : Prop := 1 ≤ tier ∧ tier ≤ 3

/-- The checks of `validate_actions` on one action. -/
def ValidAction (a : ExternalKvAction) : Prop :=
  ValidTier a.tier ∧
  (a.type = .clearAllAtTier ∨ a.hashes ≠ [] ∧ a.hashes.length ≤ maxHashesPerRequest) ∧
  (a.componentMasks = [] ∨ a.componentMasks.length = a.hashes.length) ∧
  (a.blockSizes = [] ∨ a.blockSizes.length = a.hashes.length)

def ValidActions (actions : List ExternalKvAction) : Prop :=
  actions.length ≤ maxActionsPerBatch ∧
  (actions.map (·.hashes.length)).sum ≤ maxHashesPerRequest ∧ ∀ a ∈ actions, ValidAction a

/-! ## A store, entry by entry -/

/-- No entry without a size repeats a hash that an entry with a size has. -/
def KeepsSizes (entries : List (Hash × Nat × Nat)) : Prop :=
  entries.Pairwise fun e e' => e.1 = e'.1 → e'.2.2 = 0 → e.2.2 = 0

instance (entries : List (Hash × Nat × Nat)) : Decidable (KeepsSizes entries) :=
  inferInstanceAs (Decidable (Pairwise _ _))

section Report

variable {entries entries' : List (Hash × Nat × Nat)} {hash : Hash} {v : Nat × Nat}

theorem lastByHash_concat (e : Hash × Nat × Nat) :
    lastByHash (entries ++ [e]) = (lastByHash entries).insert e.1 e.2 := by
  simp [lastByHash]

theorem mem_of_lookup_lastByHash (h : (lastByHash entries).lookup hash = some v) :
    (hash, v) ∈ entries := by
  induction entries using reverseRecOn with
  | nil => simp [lastByHash] at h
  | append_singleton entries e ih =>
    rw [lastByHash_concat] at h
    by_cases hh : hash = e.1
    · subst hh
      rw [Finmap.lookup_insert] at h
      simp [← Option.some.inj h]
    · rw [Finmap.lookup_insert_of_ne _ hh] at h
      exact mem_append_left _ (ih h)

theorem lookup_lastByHash_eq_none :
    (lastByHash entries).lookup hash = none ↔ hash ∉ entries.map Prod.fst := by
  induction entries using reverseRecOn with
  | nil => simp [lastByHash]
  | append_singleton entries e ih =>
    rw [lastByHash_concat]
    by_cases hh : hash = e.1
    · rw [hh]
      simp
    · rw [Finmap.lookup_insert_of_ne _ hh, ih]
      simp [hh]

variable {tier : Tier} {s : State}

theorem record_record {old : Option BlockRecord} {v' : Nat × Nat} (h : v'.2 = 0 → v.2 = 0) :
    record worker tier (some (record worker tier old v)) v' = record worker tier old v' := by
  simp only [record, Option.getD_some, Finmap.insert_insert, BlockRecord.mk.injEq, and_true]
  split_ifs <;> omega

theorem blocks_foldl_reportOne (hk : KeepsSizes entries) :
    (entries.foldl (reportOne worker tier) s).blocks hash =
      (((lastByHash entries).lookup hash).map (record worker tier (s.blocks hash))).or
        (s.blocks hash) := by
  induction entries using reverseRecOn with
  | nil => simp [lastByHash]
  | append_singleton entries e ih =>
    obtain ⟨hinit, -, hlast⟩ := pairwise_append.1 hk
    rw [foldl_append, foldl_cons, foldl_nil, lastByHash_concat]
    by_cases hh : hash = e.1
    · subst hh
      simp only [reportOne, ih hinit]
      cases hv : (lastByHash entries).lookup e.1 with
      | none => simp
      | some v =>
        have hsize := hlast _ (mem_of_lookup_lastByHash hv) e (mem_singleton_self e) rfl
        simp [record_record hsize]
    · simp only [reportOne, Function.update_of_ne hh, Finmap.lookup_insert_of_ne _ hh, ih hinit]

theorem holdings_foldl_reportOne (w : String) (t : Tier) :
    (entries.foldl (reportOne worker tier) s).holdings w t =
      if w = worker ∧ t = tier then s.holdings w t ∪ (entries.map Prod.fst).toFinset
      else s.holdings w t := by
  induction entries generalizing s with
  | nil => simp
  | cons e entries ih =>
    simp only [foldl_cons, ih, reportOne]
    split_ifs
    · ext
      simp
    · rfl

theorem foldl_reportOne_congr (hk : KeepsSizes entries) (hk' : KeepsSizes entries')
    (h : lastByHash entries = lastByHash entries') :
    entries.foldl (reportOne worker tier) s = entries'.foldl (reportOne worker tier) s := by
  have hmem : (entries.map Prod.fst).toFinset = (entries'.map Prod.fst).toFinset := by
    ext hash
    rw [mem_toFinset, mem_toFinset, ← not_iff_not, ← lookup_lastByHash_eq_none, h,
      lookup_lastByHash_eq_none]
  ext1
  · funext hash
    rw [blocks_foldl_reportOne hk, blocks_foldl_reportOne hk', h]
  · funext w t
    rw [holdings_foldl_reportOne, holdings_foldl_reportOne, hmem]

theorem applyAction_report {a : ExternalKvAction} (order : IterOrder Hash) (ha : a.type = .report)
    (hk : KeepsSizes a.entries) :
    applyAction worker order s a = a.entries.foldl (reportOne worker a.tier) s := by
  let last := lastByHash a.entries
  let value := fun hash => (hash, (last.lookup hash).getD (0, 0))
  have hfst : ((order.visit last.keys).map value).map Prod.fst = order.visit last.keys := by
    simp [value, Function.comp_def]
  have hdistinct : ((order.visit last.keys).map value).Pairwise fun e e' => e.1 ≠ e'.1 := by
    rw [← pairwise_map, hfst]
    exact order.nodup_visit _
  rw [applyAction, ha, ← foldl_map]
  refine (foldl_reportOne_congr hk (hdistinct.imp fun hne heq => absurd heq hne) ?_).symm
  refine Finmap.ext_lookup fun hash => ?_
  cases hv : (lastByHash ((order.visit last.keys).map value)).lookup hash with
  | none =>
    rw [lookup_lastByHash_eq_none, hfst, order.mem_visit, Finmap.mem_keys,
      ← Finmap.lookup_eq_none] at hv
    exact hv
  | some v =>
    obtain ⟨hash', hmem, heq⟩ := mem_map.1 (mem_of_lookup_lastByHash hv)
    cases heq
    rw [order.mem_visit, Finmap.mem_keys, Finmap.mem_iff] at hmem
    obtain ⟨v, hv'⟩ := hmem
    rw [hv']
    rfl

end Report

section Events

variable (order : IterOrder Hash) (worker : String) (clearTiers : List Tier)

def Action.run (s : State) : Action → State
  | .report tier entries =>
    (entries.map fun e => (e.1, e.2.1.getD 0, e.2.2.getD 0)).foldl (reportOne worker tier) s
  | .revoke tier hashes => hashes.foldl (revokeOne worker tier) s
  | .clearAll =>
    clearTiers.foldl (fun s tier => applyAction worker order s ⟨.clearAllAtTier, tier, [], [], []⟩) s

/-- Actions listed newest first. -/
def runAll (s : State) (actions : List Action) : State :=
  actions.foldr (fun a s => a.run order worker clearTiers s) s

def Action.Formed : Action → Prop
  | .report tier entries => ValidTier tier ∧ entries ≠ []
  | .revoke tier hashes => ValidTier tier ∧ hashes ≠ []
  | .clearAll => True

def Event.Decoded : Event → Prop
  | .stored tier .. | .removed tier _ => ValidTier tier
  | .cleared => True

variable {order worker clearTiers}

/-- An action that takes an event in does what the event alone does afterwards. -/
theorem runAll_push {actions : List Action} (e : Event) :
    runAll order worker clearTiers s (push actions e) =
      runAll order worker clearTiers (runAll order worker clearTiers s actions) (push [] e) := by
  fun_cases push actions e <;> simp [runAll, push, Action.run, *]

theorem formed_push {actions : List Action} (hf : ∀ a ∈ actions, a.Formed) {e : Event}
    (he : e.Decoded) : ∀ a ∈ push actions e, a.Formed := by
  fun_cases push actions e <;> simp_all [Action.Formed, Event.Decoded]

theorem runAll_foldl_push {actions : List Action} :
    runAll order worker clearTiers s (events.foldl push actions) =
      events.foldl (fun s e => runAll order worker clearTiers s (push [] e))
        (runAll order worker clearTiers s actions) := by
  induction events generalizing actions with
  | nil => rfl
  | cons e events ih => rw [foldl_cons, ih, runAll_push, foldl_cons]

theorem formed_foldl_push (he : ∀ e ∈ events, e.Decoded) {actions : List Action}
    (hf : ∀ a ∈ actions, a.Formed) : ∀ a ∈ events.foldl push actions, a.Formed := by
  induction events generalizing actions with
  | nil => exact hf
  | cons e events ih =>
    exact ih (forall_mem_of_forall_mem_cons he) (formed_push hf (he e mem_cons_self))

end Events

section Split

variable {a : ExternalKvAction} {actions : List ExternalKvAction}
  {order : IterOrder Hash} {s : State}

theorem flatMap_range_slice {α : Type*} (l : List α) (m n : Nat) :
    (range n).flatMap (fun i => (l.drop (i * m)).take m) = l.take (n * m) := by
  induction n with
  | zero => simp
  | succ n ih => rw [range_succ, flatMap_append, ih, flatMap_singleton, Nat.succ_mul, take_add]

theorem entries_slice (start n : Nat) :
    (a.slice start n).entries = (a.entries.drop start).take n := by
  refine ext_getElem? fun i => ?_
  simp only [ExternalKvAction.entries, ExternalKvAction.slice, getElem?_mapIdx, getElem?_take,
    getElem?_drop, getD_eq_getElem?_getD]
  split_ifs <;> rfl

/-- What the index needs of an action: a store keeps its sizes, a clear has no hashes. -/
def Applicable (a : ExternalKvAction) : Prop :=
  (a.type = .report → KeepsSizes a.entries) ∧ (a.type = .clearAllAtTier → a.hashes = [])

theorem foldl_splitAction (ha : Applicable a) :
    (splitAction a).foldl (applyAction worker order) s = applyAction worker order s a := by
  unfold splitAction
  split_ifs with hlen
  · rfl
  have hcover : a.hashes.length ≤ (a.hashes.length + maxHashesPerRequest - 1) /
      maxHashesPerRequest * maxHashesPerRequest := by
    simp only [maxHashesPerRequest]
    omega
  generalize (a.hashes.length + maxHashesPerRequest - 1) / maxHashesPerRequest = n at hcover
  have hall {α : Type} {l : List α} (hl : l.length = a.hashes.length) : (range n).flatMap
      (fun i => (l.drop (i * maxHashesPerRequest)).take maxHashesPerRequest) = l := by
    rw [flatMap_range_slice, take_of_length_le (hl.trans_le hcover)]
  cases htype : a.type with
  | report =>
    have hk := ha.1 htype
    rw [applyAction_report order htype hk, ← hall (l := a.entries) length_mapIdx, foldl_flatMap,
      foldl_map]
    refine foldl_ext _ _ _ fun s i _ => ?_
    have hsub : KeepsSizes (a.slice (i * maxHashesPerRequest) maxHashesPerRequest).entries := by
      rw [entries_slice]
      exact hk.sublist ((take_sublist _ _).trans (drop_sublist _ _))
    rw [@applyAction_report worker s (a.slice _ _) order htype hsub, entries_slice]
    rfl
  | revoke =>
    rw [applyAction]
    conv_rhs => rw [← hall rfl, foldl_flatMap]
    rw [foldl_map]
    simp only [applyAction, ExternalKvAction.slice, htype]
  | clearAllAtTier => simp [ha.2 htype] at hlen

theorem valid_splitAction (ha : ValidTier a.tier) (hne : a.type = .clearAllAtTier ∨ a.hashes ≠ [])
    (hm : a.componentMasks = [] ∨ a.componentMasks.length = a.hashes.length)
    (hb : a.blockSizes = [] ∨ a.blockSizes.length = a.hashes.length) :
    ∀ b ∈ splitAction a, ValidAction b ∧ b.hashes.length ≤ maxHashesPerRequest := by
  unfold splitAction
  split_ifs with hlen
  · rintro b (_ | ⟨_, ⟨⟩⟩)
    exact ⟨⟨ha, hne.imp_right (⟨·, hlen⟩), hm, hb⟩, hlen⟩
  intro b hmem
  obtain ⟨i, hi, rfl⟩ := mem_map.1 hmem
  have hstart : i * maxHashesPerRequest < a.hashes.length := by
    rw [mem_range] at hi
    simp only [maxHashesPerRequest] at hi ⊢
    omega
  have hslice {l : List Nat} (hl : l = [] ∨ l.length = a.hashes.length) :
      let part := (l.drop (i * maxHashesPerRequest)).take maxHashesPerRequest
      part = [] ∨ part.length =
        ((a.hashes.drop (i * maxHashesPerRequest)).take maxHashesPerRequest).length := by
    rcases hl with rfl | hl
    · exact .inl (by simp)
    · exact .inr (by simp [hl])
  have hpart : (a.hashes.drop (i * maxHashesPerRequest)).take maxHashesPerRequest ≠ [] := by
    apply ne_nil_of_length_pos
    rw [length_take, length_drop]
    exact lt_min (by decide) (Nat.sub_pos_of_lt hstart)
  have hle := length_take_le maxHashesPerRequest (a.hashes.drop (i * maxHashesPerRequest))
  exact ⟨⟨ha, .inr ⟨hpart, hle⟩, hslice hm, hslice hb⟩, hle⟩

theorem splitStep_spec (hv : ∀ a ∈ actions, ValidAction a ∧ a.hashes.length ≤ maxHashesPerRequest) :
    let acc := actions.foldl splitStep ([], [], 0)
    acc.1.flatten ++ acc.2.1 = actions ∧ (∀ batch ∈ acc.1, ValidActions batch) ∧
      ValidActions acc.2.1 ∧ acc.2.2 = (acc.2.1.map (·.hashes.length)).sum := by
  induction actions using reverseRecOn with
  | nil => simp [ValidActions]
  | append_singleton actions a ih =>
    obtain ⟨ha, hlen⟩ := hv a (mem_append_right _ mem_cons_self)
    obtain ⟨hflat, hbatches, hcurrent, hsum⟩ := ih fun b hb => hv b (mem_append_left _ hb)
    rw [foldl_append, foldl_cons, foldl_nil]
    generalize actions.foldl splitStep ([], [], 0) = acc at hflat hbatches hcurrent hsum ⊢
    obtain ⟨batches, current, n⟩ := acc
    dsimp only [splitStep] at hflat hbatches hcurrent hsum ⊢
    subst hsum hflat
    split_ifs with hfull
    · refine ⟨by simp, forall_mem_append.2 ⟨hbatches, by simpa using hcurrent⟩, ?_, by simp⟩
      simp [ValidActions, ha, hlen, maxActionsPerBatch]
    refine ⟨by simp, hbatches, ?_, by simp⟩
    obtain ⟨hcount, htotal, hall⟩ := hcurrent
    by_cases hnil : current = []
    · simp [hnil, ValidActions, ha, hlen, maxActionsPerBatch]
    have hroom := not_or.1 fun h => hfull ⟨hnil, h⟩
    refine ⟨?_, ?_, forall_mem_append.2 ⟨hall, by simpa using ha⟩⟩
    · rw [length_append, length_singleton]
      omega
    · simpa using hroom.2

theorem splitApplyRequest_spec (hv : ∀ a ∈ actions.flatMap splitAction,
      ValidAction a ∧ a.hashes.length ≤ maxHashesPerRequest) :
    (splitApplyRequest actions).flatten = actions.flatMap splitAction ∧
      ∀ batch ∈ splitApplyRequest actions, ValidActions batch := by
  obtain ⟨hflat, hbatches, hcurrent, -⟩ := splitStep_spec hv
  simp only [splitApplyRequest]
  split_ifs with hnil
  · exact ⟨by rwa [hnil, append_nil] at hflat, hbatches⟩
  · exact ⟨by simpa using hflat, forall_mem_append.2 ⟨hbatches, by simpa using hcurrent⟩⟩

end Split

section Bridge

variable {order : IterOrder Hash} {clearTiers : List Tier}

def SizesKept (clearTiers : List Tier) (events : List Event) : Prop :=
  ∀ a ∈ (eventActions events).flatMap (build clearTiers), a.type = .report → KeepsSizes a.entries

instance : Decidable (SizesKept clearTiers events) := inferInstanceAs (Decidable (∀ _ ∈ _, _))

theorem valid_build (hclear : ∀ t ∈ clearTiers, ValidTier t) {a : Action} (ha : a.Formed) :
    ∀ x ∈ build clearTiers a, ∀ b ∈ splitAction x,
      ValidAction b ∧ b.hashes.length ≤ maxHashesPerRequest := by
  cases a with
  | report tier entries =>
    have hencode f : encode (entries.map f) = [] ∨
        (encode (entries.map f)).length = (entries.map (·.1)).length := by
      rw [encode]
      split_ifs <;> simp
    rintro x (_ | ⟨_, ⟨⟩⟩)
    exact valid_splitAction ha.1 (.inr (map_eq_nil_iff.not.2 ha.2)) (hencode _) (hencode _)
  | revoke tier hashes =>
    rintro x (_ | ⟨_, ⟨⟩⟩)
    exact valid_splitAction ha.1 (.inr ha.2) (.inl rfl) (.inl rfl)
  | clearAll =>
    intro x hx
    obtain ⟨tier, htier, rfl⟩ := mem_map.1 hx
    exact valid_splitAction (hclear tier htier) (.inl rfl) (.inl rfl) (.inl rfl)

theorem getD_encode (values : List (Option Nat)) (i : Nat) :
    (encode values)[i]?.getD 0 = (values[i]?.getD none).getD 0 := by
  rw [encode]
  split_ifs with hnone
  · cases hv : values[i]? with
    | none => rfl
    | some v => simp [Option.isNone_iff_eq_none.1 (all_eq_true.1 hnone v (mem_of_getElem? hv))]
  · cases hv : values[i]? <;> simp [hv]

theorem entries_build {tier : Tier} {entries : List (Hash × Option Nat × Option Nat)} :
    ExternalKvAction.entries ⟨.report, tier, entries.map (·.1), encode (entries.map (·.2.1)),
      encode (entries.map (·.2.2))⟩ = entries.map fun e => (e.1, e.2.1.getD 0, e.2.2.getD 0) := by
  refine ext_getElem? fun i => ?_
  simp only [ExternalKvAction.entries, getElem?_mapIdx, getElem?_map, getD_eq_getElem?_getD,
    getD_encode]
  cases entries[i]? <;> rfl

theorem foldl_build {a : Action}
    (hk : ∀ x ∈ build clearTiers a, x.type = .report → KeepsSizes x.entries) :
    ((build clearTiers a).flatMap splitAction).foldl (applyAction worker order) s =
      a.run order worker clearTiers s := by
  rw [foldl_flatMap]
  cases a with
  | report tier entries =>
    have hkeeps := hk _ mem_cons_self rfl
    rw [Action.run, ← entries_build, ← applyAction_report order rfl hkeeps]
    exact foldl_splitAction ⟨fun _ => hkeeps, by rintro ⟨⟩⟩
  | revoke tier hashes => exact foldl_splitAction ⟨by rintro ⟨⟩, by rintro ⟨⟩⟩
  | clearAll =>
    rw [build, foldl_map]
    rfl

theorem requests_spec (order : IterOrder Hash) (worker : String)
    (hclear : ∀ t ∈ clearTiers, ValidTier t) (he : ∀ e ∈ events, e.Decoded) :
    (∀ r ∈ requests clearTiers events, ValidActions r) ∧
    (SizesKept clearTiers events → ∀ s, applyAll order worker s (requests clearTiers events) =
      runAll order worker clearTiers s (events.foldl push [])) := by
  have hformed := @formed_foldl_push events he [] nofun
  obtain ⟨hflat, hvalid⟩ := @splitApplyRequest_spec
    ((eventActions events).flatMap (build clearTiers)) (by
      simp only [mem_flatMap]
      rintro b ⟨x, ⟨a, ha, hx⟩, hb⟩
      exact valid_build hclear (hformed a (mem_reverse.1 ha)) x hx b hb)
  refine ⟨hvalid, fun hk s => ?_⟩
  rw [applyAll, ← foldl_flatten, requests, hflat, flatMap_assoc, foldl_flatMap, runAll,
    ← foldl_reverse]
  exact foldl_ext _ _ _ fun s a ha => foldl_build fun x hx => hk x (mem_flatMap.2 ⟨a, ha, hx⟩)

theorem sizesKept_singleton (e : Event) : SizesKept clearTiers [e] := by
  intro a ha hr
  cases e with
  | stored tier hashes mask blockSize =>
    by_cases hnil : hashes = []
    · simp [eventActions, push, hnil] at ha
    simp only [eventActions, foldl_cons, push, if_neg hnil, foldl_nil, reverse_singleton,
      flatMap_singleton, build, mem_singleton] at ha
    rw [ha, entries_build, KeepsSizes, pairwise_map, pairwise_map]
    exact pairwise_of_forall fun _ _ _ => id
  | removed tier hashes =>
    by_cases hnil : hashes = [] <;> simp [eventActions, push, hnil, build] at ha
    rw [ha] at hr
    cases hr
  | cleared =>
    obtain ⟨tier, -, rfl⟩ : ∃ tier ∈ clearTiers, _ = a := by simpa [eventActions, push, build] using ha
    cases hr

end Bridge

/-- A block is stored with its size, and again without one. -/
def sizeDropped : List Event := [.stored 1 [7] (some 1) (some 16), .stored 1 [7] none none]

def State.empty : State := ⟨fun _ => none, fun _ _ => ∅⟩

variable {tier : Tier}

def State.placements (s : State) (h : Hash) : Finmap fun _ : String × Tier => Nat :=
  ((s.blocks h).getD ⟨0, ∅⟩).placements

/-- The holdings of a worker at a tier are the blocks that are placed there. -/
def State.Agrees (s : State) : Prop := ∀ h w t, h ∈ s.holdings w t ↔ (w, t) ∈ s.placements h

theorem placements_reportOne (e : Hash × Nat × Nat) (h : Hash) :
    (reportOne worker tier s e).placements h =
      if h = e.1 then (s.placements h).insert (worker, tier) e.2.1 else s.placements h := by
  by_cases hh : h = e.1 <;> simp [State.placements, reportOne, record, hh]

theorem placements_revokeOne (hash h : Hash) : (revokeOne worker tier s hash).placements h =
    if h = hash then (s.placements h).erase (worker, tier) else s.placements h := by
  by_cases hh : h = hash
  · subst hh
    cases hb : s.blocks h with
    | none =>
      have hnone : (∅ : Finmap fun _ : String × Tier => Nat).erase (worker, tier) = ∅ := rfl
      simp [State.placements, revokeOne, hb, hnone]
    | some b =>
      by_cases hempty : b.placements.erase (worker, tier) = ∅ <;>
        simp [State.placements, revokeOne, hb, hempty]
  · simp [State.placements, revokeOne, hh]

theorem State.Agrees.reportOne (hs : s.Agrees) (e : Hash × Nat × Nat) :
    (reportOne worker tier s e).Agrees := by
  intro h w t
  have hold := hs h w t
  rw [placements_reportOne]
  simp only [Indexer.reportOne]
  grind [Finmap.mem_insert]

theorem State.Agrees.revokeOne (hs : s.Agrees) (hash : Hash) :
    (revokeOne worker tier s hash).Agrees := by
  intro h w t
  have hold := hs h w t
  rw [placements_revokeOne]
  simp only [Indexer.revokeOne]
  grind [Finmap.mem_erase]

theorem State.Agrees.applyAction (hs : s.Agrees) (order : IterOrder Hash) (a : ExternalKvAction) :
    (applyAction worker order s a).Agrees := by
  unfold Indexer.applyAction
  split
  · exact foldlRecOn _ _ hs fun _ h _ _ => h.reportOne _
  · exact foldlRecOn _ _ hs fun _ h _ _ => h.revokeOne _
  · exact foldlRecOn _ _ hs fun _ h _ _ => h.revokeOne _

theorem State.Agrees.empty : State.empty.Agrees := fun _ _ _ =>
  iff_of_false (Finset.notMem_empty _) Finmap.notMem_empty

/-- Whatever requests of whatever workers the index has applied, its two maps agree. -/
theorem index_maps_agree (applied : List (String × IterOrder Hash × List (List ExternalKvAction))) :
    (applied.foldl (fun s r => applyAll r.2.1 r.1 s r.2.2) .empty).Agrees := by
  refine foldlRecOn _ _ .empty fun s hs r _ => foldlRecOn _ _ hs fun s hs actions _ => ?_
  exact foldlRecOn _ _ hs fun _ h _ _ => h.applyAction _ _

end SparkInfer.Indexer
