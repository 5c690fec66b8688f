import SparkInfer.Unified.LockSpecs

/-!
# Where a match may end

The validator of the sliding-window component walks down from the root and counts the tokens
since the last node without data, from infinity on.  It accepts a node exactly if the
trailing window of the node is there, and then the walks up from the node, which count values
and not keys, find the whole window or stop at the root.
-/

namespace SparkInfer.Unified

open Lib List

variable {cfg : CoreConfig} {d : Data} {n node : NodeId} {ns : List NodeId} {deviceOnly : Bool}

namespace Data

/-- `SWA` data a match can use: on the device, or on the host where host matches are allowed. -/
def usable (d : Data) (deviceOnly : Bool) (n : NodeId) : Bool :=
  d.has .device .swa n || (!deviceOnly && d.has .host .swa n)

/-- A call of the validator that `create_match_validator` returns: `state["len"]`, `none` for
infinity, and the verdict.  `ring` is `swa_device_only_hicache`. -/
def validator (cfg : CoreConfig) (ring deviceOnly : Bool) (d : Data) (len : Option Nat)
    (n : NodeId) :
    Option Nat × Bool :=
  if d.value .device .swa n = none ∧ (deviceOnly = true ∨ d.value .host .swa n = none) then
    (some 0, ring && (d.has .host .full n || d.has .device .full n))
  else
    let len := len.map (· + d.tree.keyLen n)
    (len, len.all (cfg.slidingWindowSize ≤ ·))

/-- The verdict on `node` at the end of its path from the root. -/
def accepts (cfg : CoreConfig) (ring deviceOnly : Bool) (d : Data) (node : NodeId) : Bool :=
  ((d.tree.climb node).reverse.foldl (fun s n => d.validator cfg ring deviceOnly s.1 n)
    (none, true)).2

/-- The loop of `build_hicache_transfers` in the phase `LOAD_BACK`: the nodes that are on the
host only, with their values. -/
def loadBackUp (cfg : CoreConfig) (d : Data) : Nat → List NodeId →
    Except PyError (List (NodeId × List Int))
  | _, [] => .ok []
  | nSwa, cur :: rest =>
    if nSwa < cfg.slidingWindowSize then
      match d.value .device .swa cur, d.value .host .swa cur with
      | some v, _ => loadBackUp cfg d (nSwa + v.length) rest
      | none, some v => (loadBackUp cfg d (nSwa + v.length) rest).map ((cur, v) :: ·)
      | none, none => .error (.assertionError "")
    else .ok []

/-- The host indices and the nodes of the transfer, from the top down. -/
def transfer (found : List (NodeId × List Int)) : Option (List Int × List NodeId) :=
  if found = [] then none else some (found.reverse.flatMap Prod.snd, found.reverse.map Prod.fst)

def loadBack (cfg : CoreConfig) (ring : Bool) (d : Data) (node : NodeId) :
    Except PyError (Option (List Int × List NodeId)) :=
  if ring then .ok none else (loadBackUp cfg d 0 (d.tree.climb node)).map transfer

/-- The loop of `finalize_match_result_in_tree_core`. -/
def hostHitUp (cfg : CoreConfig) (d : Data) : Nat → Nat → List NodeId → Nat
  | _, hit, [] => hit
  | nSwa, hit, cur :: rest =>
    if nSwa < cfg.slidingWindowSize then
      match d.value .device .swa cur, d.value .host .swa cur with
      | some v, _ => hostHitUp cfg d (nSwa + v.length) hit rest
      | none, some v => hostHitUp cfg d (nSwa + v.length) (hit + v.length) rest
      | none, none => hit
    else hit

/-- `finalize_match_result_in_tree_core`: the new `swa_host_hit_length`. -/
def finalizeMatchResult (cfg : CoreConfig) (d : Data) (node : NodeId)
    (swaHostHitLength : Nat) : Nat :=
  let hit := hostHitUp cfg d 0 0 (d.tree.climb node)
  if 0 < hit then max swaHostHitLength hit else swaHostHitLength

def Aligned (d : Data) : Prop := ∀ l n v, d.value l .swa n = some v → v.length = d.tree.keyLen n

def hostOnly (d : Data) (ns : List NodeId) : List (NodeId × List Int) :=
  ns.filterMap fun n => if d.has .device .swa n then none else (d.value .host .swa n).map (n, ·)

theorem usable_false (h : d.usable deviceOnly n = true) : d.usable false n = true := by
  cases deviceOnly with
  | false => exact h
  | true => simp_all [usable]

section WindowWalk

variable {f g : NodeId → Nat} {window : Nat}

theorem windowWalk_congr (size : Nat) (h : ∀ n ∈ windowWalk f window size ns, g n = f n) :
    windowWalk g window size ns = windowWalk f window size ns := by
  induction ns generalizing size with
  | nil => rfl
  | cons n ns ih =>
    rw [windowWalk, windowWalk] at *
    split_ifs at h ⊢
    · obtain ⟨hn, hns⟩ := forall_mem_cons.mp h
      rw [hn, ih _ hns]
    · rfl

theorem mem_windowWalk (size : Nat) : n ∈ windowWalk f window size ns ↔
    ∃ below above, ns = below ++ n :: above ∧ size + (below.map f).sum < window := by
  induction ns generalizing size with
  | nil => simp [windowWalk]
  | cons m ns ih =>
    rw [windowWalk]
    constructor
    · intro hn
      split_ifs at hn with hsize
      · obtain rfl | hn := mem_cons.mp hn
        · exact ⟨[], ns, rfl, by simpa using hsize⟩
        · obtain ⟨below, above, rfl, hlt⟩ := (ih _).mp hn
          exact ⟨m :: below, above, rfl, by simpa [add_assoc] using hlt⟩
      · cases hn
    · rintro ⟨below, above, hsplit, hlt⟩
      rw [if_pos (by omega)]
      cases below with
      | nil =>
        cases hsplit
        exact mem_cons_self
      | cons b below =>
        cases hsplit
        refine mem_cons_of_mem _ ((ih _).mpr ⟨below, above, rfl, ?_⟩)
        simpa [add_assoc] using hlt

end WindowWalk

/-- The nodes with a token among the last `sliding_window_size` of the path to `node`. -/
def trailing (cfg : CoreConfig) (d : Data) (node : NodeId) : List NodeId :=
  windowWalk d.tree.keyLen cfg.slidingWindowSize 0 (d.tree.climb node)

/-! ## The validator -/

/-- `state["len"]` at the end of a path, from its last node up. -/
def matchLen (cfg : CoreConfig) (deviceOnly : Bool) (d : Data) (ns : List NodeId) : Option Nat :=
  ns.foldr (fun n len => (d.validator cfg false deviceOnly len n).1) none

theorem validator_eq (len : Option Nat) : d.validator cfg false deviceOnly len n =
    if d.usable deviceOnly n then
      (len.map (· + d.tree.keyLen n), (len.map (· + d.tree.keyLen n)).all (cfg.slidingWindowSize ≤ ·))
    else (some 0, false) := by
  unfold validator usable has
  cases d.value .device .swa n <;> cases d.value .host .swa n <;> cases deviceOnly <;> simp

/-- The count reaches the window exactly if the window has data. -/
theorem usable_windowWalk_iff (size : Nat) :
    (∀ n ∈ windowWalk d.tree.keyLen cfg.slidingWindowSize size ns, d.usable deviceOnly n = true) ↔
      ∀ k ∈ d.matchLen cfg deviceOnly ns, cfg.slidingWindowSize ≤ size + k := by
  induction ns generalizing size with
  | nil => simp [windowWalk, matchLen]
  | cons n ns ih =>
    have hlen : d.matchLen cfg deviceOnly (n :: ns) =
        (d.validator cfg false deviceOnly (d.matchLen cfg deviceOnly ns) n).1 := rfl
    rw [hlen, validator_eq, windowWalk]
    split_ifs with hsize husable husable
    · rw [forall_mem_cons, ih]
      simp [husable, add_assoc, add_comm (d.tree.keyLen n)]
    · simp [husable, hsize]
    · simp
      omega
    · simp
      omega

theorem accepts_iff : d.accepts cfg false deviceOnly node = true ↔
    ∀ n ∈ d.trailing cfg node, d.usable deviceOnly n = true := by
  have hlen : ∀ ns, (ns.foldr (fun n s => d.validator cfg false deviceOnly s.1 n) (none, true)).1 =
      d.matchLen cfg deviceOnly ns := by
    intro ns
    induction ns with
    | nil => rfl
    | cons n ns ih => rw [matchLen, foldr_cons, foldr_cons, ih, matchLen]
  rw [accepts, foldl_reverse, trailing, usable_windowWalk_iff]
  cases d.tree.climb node with
  | nil => simp [matchLen]
  | cons n above =>
    have hcons : d.matchLen cfg deviceOnly (n :: above) =
        (d.validator cfg false deviceOnly (d.matchLen cfg deviceOnly above) n).1 := rfl
    rw [foldr_cons, hlen, hcons, validator_eq]
    split_ifs
    · simp [Option.all_eq_true]
    · simpa using cfg.window_pos.ne'

section Walks

variable (h : d.Aligned) {size : Nat}
  (husable : ∀ n ∈ windowWalk d.tree.keyLen cfg.slidingWindowSize size ns, d.usable false n = true)
include h husable

/-- Both walks find the nodes of the window that are on the host only. -/
theorem walks_eq : loadBackUp cfg d size ns =
      .ok (d.hostOnly (windowWalk d.tree.keyLen cfg.slidingWindowSize size ns)) ∧
    ∀ hit, hostHitUp cfg d size hit ns = hit + ((d.hostOnly
      (windowWalk d.tree.keyLen cfg.slidingWindowSize size ns)).map (·.2.length)).sum := by
  induction ns generalizing size with
  | nil => exact ⟨rfl, fun _ => rfl⟩
  | cons n ns ih =>
    simp only [windowWalk, loadBackUp, hostHitUp] at husable ⊢
    split_ifs at husable ⊢
    · obtain ⟨hn, hns⟩ := forall_mem_cons.mp husable
      obtain ⟨hback, hhit⟩ := ih hns
      cases hdev : d.value .device .swa n with
      | some v => simp [h _ _ _ hdev, hback, hhit, hostOnly, has, hdev]
      | none =>
        cases hhost : d.value .host .swa n with
        | some v =>
          simp [h _ _ _ hhost, hback, hhit, hostOnly, has, hdev, hhost, Except.map, Nat.add_assoc]
        | none => simp [usable, has, hdev, hhost] at hn
    · exact ⟨rfl, fun _ => rfl⟩

end Walks

end Data

open Data

/-- `acquire_component_lock` on the device, where the window is on the device. -/
theorem Core.swaAcquire_trailing {c c' : Core} {r r' : IncLockRefResult} (h : c.toData.Aligned)
    (hnd : (c.tree.climb node).Nodup)
    (husable : ∀ n ∈ c.toData.trailing cfg node, c.toData.usable true n = true)
    (hrun : c.swaAcquire cfg .device node r = (c', r')) :
    r'.skipLockNodeIds = r.skipLockNodeIds ∧ (∀ n, c'.lockRef .device .swa n =
      c.lockRef .device .swa n + if n ∈ c.toData.trailing cfg node then 1 else 0) ∧
    (r'.swaUuid .device = none → c.toData.trailing cfg node = c.tree.climb node) := by
  have hhas : ∀ n ∈ c.toData.trailing cfg node, c.toData.has .device .swa n = true :=
    fun n hn => by simpa [usable] using husable n hn
  have hwalk : windowWalk (c.toData.swaLen .device) cfg.slidingWindowSize 0 (c.tree.climb node) =
      c.toData.trailing cfg node := by
    refine windowWalk_congr _ fun n hn => ?_
    obtain ⟨v, hv⟩ := Option.ne_none_iff_exists'.mp (of_decide_eq_true (hhas n hn))
    rw [swaLen, hv]
    exact h _ _ _ hv
  have hacq := Core.swaAcquire_spec hnd hrun
  have hskipped : c.toData.skipped cfg .device node .swa = ∅ := by
    rw [skipped, hwalk]
    simpa using hhas
  have hcovered : c.toData.covered cfg .device node .swa = c.toData.trailing cfg node := by
    rw [covered, hwalk]
    exact filter_eq_self.mpr hhas
  refine ⟨?_, fun n => ?_, fun hnone => ?_⟩
  · rw [hacq.skip, hskipped, Core.skip_none]
  · rw [hacq.data, hcovered, bump_lockRef_self, (marked_frame _ _ _).2.2]
  · rw [hacq.swaUuid, if_pos rfl, Function.update_self, Option.map_eq_none_iff] at hnone
    rw [← hwalk]
    exact windowWalk_of_last_none cfg.window_pos hnone

/-- The validator accepts a node exactly if every node that reaches into the last
`sliding_window_size` tokens of its path has data.  The walks up from an accepted node then
go to the end of the window or to the root and find data on every node: `LOAD_BACK` and the
host hit wherever the data may be, the lock on the device if the match was one on the device. -/
theorem swa_match_boundary (cfg : CoreConfig) (c : Core) (hwf : c.tree.WF) (h : c.toData.Aligned)
    (hn : node ∈ c.tree.arena) (deviceOnly : Bool) :
    (c.toData.accepts cfg false deviceOnly node = true ↔
      (∀ below n above, c.tree.climb node = below ++ n :: above →
        (below.map c.tree.keyLen).sum < cfg.slidingWindowSize →
          c.toData.usable deviceOnly n = true) ∨
      ∀ n ∈ c.tree.climb node, c.toData.usable deviceOnly n = true) ∧
    (c.toData.accepts cfg false deviceOnly node = true →
      ∃ walk above, c.tree.climb node = walk ++ above ∧
        (above = [] ∨ cfg.slidingWindowSize ≤ (walk.map c.tree.keyLen).sum) ∧
        (∀ n ∈ walk, c.toData.usable deviceOnly n = true) ∧
        c.toData.loadBack cfg false node = .ok (transfer (c.toData.hostOnly walk)) ∧
        (∀ k, c.toData.finalizeMatchResult cfg node k =
          max k ((c.toData.hostOnly walk).map (·.2.length)).sum) ∧
        (deviceOnly = true → ∀ r c' r', c.swaAcquire cfg .device node r = (c', r') →
          r'.skipLockNodeIds = r.skipLockNodeIds ∧ (∀ n, c'.lockRef .device .swa n =
            c.lockRef .device .swa n + if n ∈ walk then 1 else 0) ∧
          (above = [] ∨ r'.swaUuid .device ≠ none))) := by
  obtain ⟨above, hsplit, hstop⟩ :=
    windowWalk_stops c.tree.keyLen cfg.slidingWindowSize 0 (c.tree.climb node)
  rw [accepts_iff]
  constructor
  · constructor
    · intro hall
      refine .inl fun below n above hpath hlt => hall n ((mem_windowWalk _).mpr ?_)
      exact ⟨below, above, hpath, by rwa [zero_add]⟩
    rintro (hwindow | hall) n hmem
    · obtain ⟨below, above, hpath, hlt⟩ := (mem_windowWalk _).mp hmem
      exact hwindow below n above hpath (by rwa [zero_add] at hlt)
    · exact hall n (hsplit ▸ mem_append_left _ hmem)
  · intro hall
    obtain ⟨hback, hhit⟩ := walks_eq h fun n hmem => usable_false (hall n hmem)
    refine ⟨_, above, hsplit, by rwa [zero_add] at hstop, hall, ?_, fun k => ?_, ?_⟩
    · rw [loadBack, hback]
      rfl
    · rw [finalizeMatchResult, hhit, zero_add]
      split_ifs
      · rfl
      · omega
    rintro rfl r c' r' hrun
    obtain ⟨hskip, hlock, huuid⟩ := Core.swaAcquire_trailing h (hwf.climb_nodup hn) hall hrun
    refine ⟨hskip, hlock, ?_⟩
    by_contra hcontra
    obtain ⟨hrest, hnone⟩ := not_or.mp hcontra
    exact hrest (self_eq_append_right.mp ((huuid (Decidable.not_not.mp hnone)).trans hsplit))

/-- A model with a window of four tokens. -/
def windowConfig : CoreConfig where
  components := [.full, .swa]
  components_nodup := fullSwa_nodup
  slidingWindowSize := 4
  window_pos := by decide
  isWriteBack := false

/-- Two nodes of four tokens below each other; the lower one has its `SWA` data on layer `l`,
the upper one has none. -/
def twoNodes (l : Layer) : Core :=
  let c := Core.fresh windowConfig 0 0
  let d := (c.toData.addNode 0 4 .device [1, 2, 3, 4]).addNode 1 4 .device [5, 6, 7, 8]
  { c with toData := d.setValue l .swa 2 (some [5, 6, 7, 8]) }

theorem twoNodes_wf (l : Layer) : (twoNodes l).tree.WF :=
  ((Tree.WF.ofFresh 0).addNode (by decide) (by decide)).addNode (by decide) (by decide)

theorem twoNodes_aligned (l : Layer) : (twoNodes l).toData.Aligned := by
  intro l' n v hv
  simp only [twoNodes, setValue, addNode, Core.fresh, reduceCtorEq, and_false, false_and, if_false,
    true_and] at hv
  split_ifs at hv with hn
  cases hv
  rw [hn.2]
  rfl

theorem swa_match_boundary_twoNodes :
    (twoNodes .device).toData.accepts windowConfig false true 2 = true ∧
    (twoNodes .device).toData.loadBack windowConfig false 2 = .ok none ∧
    ∃ walk above, (twoNodes .device).tree.climb 2 = walk ++ above ∧
      ∀ n ∈ walk, (twoNodes .device).toData.usable true n = true := by
  have haccepts : (twoNodes .device).toData.accepts windowConfig false true 2 = true := by decide
  obtain ⟨walk, above, hsplit, -, hall, -⟩ := (swa_match_boundary windowConfig (twoNodes .device)
    (twoNodes_wf _) (twoNodes_aligned _) (by decide) true).2 haccepts
  exact ⟨haccepts, by decide, walk, above, hsplit, hall⟩

/-- Where host matches are allowed, the device lock of an accepted node goes past the window to
a node without any data; with the device-only ring such a node is itself accepted. -/
theorem accepted_walk_meets_tombstone :
    (twoNodes .host).toData.accepts windowConfig false false 2 = true ∧
    (twoNodes .host).toData.usable false 1 = false ∧
    1 ∈ ((twoNodes .host).swaAcquire windowConfig .device 2 .empty).2.skipLockNodeIds .swa ∧
    (twoNodes .host).toData.accepts windowConfig true false 1 = true := by
  decide

end SparkInfer.Unified
