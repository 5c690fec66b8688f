import SparkInfer.Gateway.Evict
import SparkInfer.Gateway.Matching
import Mathlib.Data.String.Basic

/-!
# Runs of the prefix tree

Any sequence of operations on a tree that starts empty, at any epoch.  The one step
that breaks the invariants is a lookup by `prefix_match_with_counts` while no tenant
has the root: it reports the tenant `"empty"`, and every eighth epoch also writes it
into the tree.
-/

namespace SparkInfer.Gateway

open Lib List

variable {ns : Finset NodeId} {s : Tree}

inductive Op
  | insert (text : List Char) (tenant : TenantId)
  | prefixMatchWithCounts (orders : Orders) (text : List Char)
  | prefixMatchTenant (text : List Char) (tenant : TenantId)
  | evictTenantBySize (orders : Orders) (heap : EvictionHeap) (maxSize : ℕ)
  | removeTenant (orders : Orders) (tenant : TenantId)

namespace Op

def apply (s : Tree) : Op → Tree
  | insert text tenant => s.insert text tenant
  | prefixMatchWithCounts orders text => (s.prefixMatchWithCounts orders text).1
  | prefixMatchTenant text tenant => (s.prefixMatchTenant text tenant).1
  | evictTenantBySize orders heap maxSize => s.evictTenantBySize orders heap maxSize
  | removeTenant orders tenant => s.removeTenant orders tenant

/-- A lookup that writes an access time finds some tenant at the root. -/
def Safe (s : Tree) : Op → Prop
  | prefixMatchWithCounts _ _ =>
    s.epoch &&& 7 = 0 → (s.nodes rootId).tenantLastAccessTime.keys ≠ ∅
  | _ => True

def Evicts : Op → Prop
  | evictTenantBySize _ _ _ => True
  | _ => False

def texts (t : TenantId) (ys : List (List Char)) : Op → List (List Char)
  | insert y u => if u = t then y :: ys else ys
  | removeTenant _ u => if u = t then [] else ys
  | _ => ys

end Op

def run (epoch : UInt64) (ops : List Op) : Tree := ops.foldl Op.apply (Tree.new epoch)

def insertedTexts (t : TenantId) (ops : List Op) : List (List Char) := ops.foldl (Op.texts t) []

def SafeRun (epoch : UInt64) (ops : List Op) : Prop :=
  ∀ done op rest, ops = done ++ op :: rest → op.Safe (run epoch done)

structure LongestShared (x : List Char) (ys : List (List Char)) (r : List Char) : Prop where
  initial : r <+: x
  shared : r = [] ∨ ∃ y ∈ ys, r <+: y
  longest : ∀ y ∈ ys, ∀ z, z <+: x → z <+: y → z.length ≤ r.length

namespace Tree

variable {i : NodeId} {t : TenantId}

inductive InTree (s : Tree) : NodeId → Prop
  | root : InTree s rootId
  | child {p i : NodeId} {c : Char} (hp : InTree s p)
      (hi : (s.nodes p).children.lookup c = some i) : InTree s i

structure Invariants (s : Tree) (names : TenantId → Prop) : Prop where
  nested : ∀ {p i c t}, s.InTree p → (s.nodes p).children.lookup c = some i → s.has i t = true →
    s.has p t = true
  named : ∀ {i t}, s.InTree i → s.has i t = true → names t
  counted : ∃ ns : Finset NodeId, (∀ i, i ∈ ns ↔ s.InTree i) ∧ ∀ t, s.tenantCharCount.lookup t =
    if ∃ i ∈ ns, s.has i t = true then
      some (∑ i ∈ ns with s.has i t = true, (s.nodes i).text.text.length)
    else none
  recount : ∀ orders, s.getUsedSizePerTenant orders = s.tenantCharCount

theorem Shape.mem_iff_inTree (hs : s.Shape ns) : i ∈ ns ↔ s.InTree i := by
  constructor
  · intro hi
    obtain ⟨xs, hxs⟩ := hs.wf.toRooted.spine i hi
    clear hi
    induction hxs with
    | root => exact .root
    | @snoc n p xs hmem hne hpar _ ih =>
      obtain ⟨q, -, c, hchild, hlook⟩ := hs.exists_child hmem hne
      have hqp : q = p := Option.some.inj (hchild.parent.symm.trans hpar)
      exact .child (hqp ▸ ih) hlook
  · intro hi
    induction hi with
    | root => exact hs.root_mem
    | child _ hlook ih => exact ((hs.lookup ih _ _).mp hlook).mem

theorem Accounted.invariants (hs : s.Accounted ns) {names : TenantId → Prop}
    (hnames : ∀ i t, s.has i t = true → names t) : s.Invariants names where
  nested hp hlook hi := by
    have hchild := (hs.lookup (hs.mem_iff_inTree.mpr hp) _ _).mp hlook
    exact hs.sub hchild.mem hchild.parent hi
  named _ hi := hnames _ _ hi
  counted := by
    refine ⟨ns, fun i => hs.mem_iff_inTree, fun t => (hs.counted t).trans ?_⟩
    have hroot : (∃ i ∈ ns, s.has i t = true) ↔ s.has rootId t = true :=
      ⟨fun ⟨_, _, hi⟩ => hs.toOwned.has_root hi, fun h => ⟨rootId, hs.root_mem, h⟩⟩
    simp only [hroot, Finset.sum_filter]
    rfl
  recount := hs.getUsedSizePerTenant

theorem has_new (epoch : UInt64) : (Tree.new epoch).has i t = false :=
  decide_eq_false Finmap.notMem_empty

theorem accounted_new (epoch : UInt64) : (Tree.new epoch).Accounted {rootId} where
  wf := by
    have honly : ∀ n ∈ ({rootId} : Finset NodeId), n ≠ rootId → False :=
      fun n hn hne => hne (mem_singleton.mp hn)
    refine ⟨⟨mem_singleton_self rootId, fun n hn => ⟨[], ?_⟩⟩,
      fun n hn hne => (honly n hn hne).elim, fun n hn hne => (honly n hn hne).elim,
      fun n hn _ _ hne => (honly n hn hne).elim⟩
    rw [mem_singleton.mp hn]
    exact .root
  lookup _ c id := by
    refine ⟨fun h => ?_, fun h => absurd (mem_singleton.mp h.mem) h.ne_root⟩
    cases h
  rootText := rfl
  rootParent := rfl
  fresh h := (mem_singleton.mp h).trans_lt zero_lt_one
  unlinked _ t := has_new epoch
  sub _ hpar := nomatch hpar
  owner hi hne := absurd (mem_singleton.mp hi) hne
  counted t := by
    exact Finmap.lookup_empty t

end Tree

open Tree

variable {epoch : UInt64} {ops : List Op}

/-- What every step of a run keeps: the accounts, the names, and, before the first
eviction, that a tenant covers just the texts inserted for it. -/
structure Kept (ops : List Op) (s : Tree) (ns : Finset NodeId) : Prop where
  accounted : s.Accounted ns
  named : ∀ {i t}, s.has i t = true → ∃ text, Op.insert text t ∈ ops
  covered : (∀ op ∈ ops, ¬op.Evicts) → ∀ t x, s.Covered ns t x ↔ ∃ y ∈ insertedTexts t ops, x <+: y

theorem insertedTexts_snoc (t : TenantId) (op : Op) :
    insertedTexts t (ops ++ [op]) = op.texts t (insertedTexts t ops) := by
  rw [insertedTexts, foldl_append]
  rfl

theorem Tree.Owned.exists_has_iff (hs : s.Owned ns) (t : TenantId) :
    (∃ i, s.has i t = true) ↔ s.Covered ns t [] := by
  constructor
  · rintro ⟨i, hi⟩
    obtain ⟨w, hw⟩ := hs.exists_reads (hs.mem_of_has hi)
    exact ⟨i, w, hi, hw, nil_prefix⟩
  · rintro ⟨i, -, hi, -⟩
    exact ⟨i, hi⟩

section Step

variable (h : Kept ops s ns)
include h

theorem Kept.quiet {s' : Tree} (hquiet : Quiet s s') {op : Op}
    (htexts : ∀ t ys, op.texts t ys = ys) : Kept (ops ++ [op]) s' ns where
  accounted := hquiet.accounted h.accounted
  named hi := by
    obtain ⟨text, hmem⟩ := h.named (hquiet.has _ _ ▸ hi)
    exact ⟨text, mem_append_left _ hmem⟩
  covered hno t x := by
    rw [hquiet.toSameTenants.covered, insertedTexts_snoc, htexts]
    exact h.covered (fun o ho => hno o (mem_append_left _ ho)) t x

theorem Kept.insert (w : List Char) (t : TenantId) :
    ∃ ns', Kept (ops ++ [.insert w t]) (s.insert w t) ns' := by
  obtain ⟨ns', hacc, hcov⟩ := h.accounted.insert w t
  refine ⟨ns', hacc, fun {i u} hi => ?_, fun hno u x => ?_⟩
  · have hu := (hacc.toOwned.exists_has_iff u).mp ⟨i, hi⟩
    rcases (hcov u []).mp hu with hold | ⟨rfl, -⟩
    · obtain ⟨j, hj⟩ := (h.accounted.toOwned.exists_has_iff u).mpr hold
      obtain ⟨text, hmem⟩ := h.named hj
      exact ⟨text, mem_append_left _ hmem⟩
    · exact ⟨w, mem_append_right _ (mem_singleton_self _)⟩
  · rw [hcov, h.covered (fun o ho => hno o (mem_append_left _ ho)), insertedTexts_snoc, Op.texts]
    by_cases hu : u = t
    · subst hu
      rw [if_pos rfl]
      simp only [true_and, mem_cons, exists_eq_or_imp]
      exact or_comm
    · rw [if_neg (Ne.symm hu)]
      exact or_iff_left fun hx => hu hx.1

theorem Kept.evictTenantBySize (orders : Orders) (heap : EvictionHeap) (m : ℕ) :
    ∃ ns', Kept (ops ++ [.evictTenantBySize orders heap m]) (s.evictTenantBySize orders heap m) ns' := by
  obtain ⟨ns', hacc, -, hhas⟩ := h.accounted.evictTenantBySize orders heap m
  refine ⟨ns', hacc, fun hi => ?_, fun hno => ?_⟩
  · obtain ⟨text, hmem⟩ := h.named (hhas _ _ hi)
    exact ⟨text, mem_append_left _ hmem⟩
  · exact absurd trivial (hno _ (mem_append_right _ (mem_singleton_self _)))

theorem Kept.removeTenant (orders : Orders) (t : TenantId) :
    ∃ ns', Kept (ops ++ [.removeTenant orders t]) (s.removeTenant orders t) ns' := by
  obtain ⟨ns', hacc, hhas, -, hpath⟩ := h.accounted.removeTenant orders t
  refine ⟨ns', hacc, fun hi => ?_, fun hno u x => ?_⟩
  · obtain ⟨text, hmem⟩ := h.named ((hhas _ _).mp hi).1
    exact ⟨text, mem_append_left _ hmem⟩
  rw [covered_removeTenant h.accounted.toOwned hacc.toOwned hhas hpath,
    h.covered (fun o ho => hno o (mem_append_left _ ho)), insertedTexts_snoc, Op.texts]
  by_cases hu : u = t
  · subst hu
    simp
  · rw [if_neg (Ne.symm hu)]
    exact and_iff_left hu

theorem Kept.apply (op : Op) (hsafe : op.Safe s) : ∃ ns', Kept (ops ++ [op]) (op.apply s) ns' := by
  cases op with
  | insert w t => exact h.insert w t
  | prefixMatchWithCounts orders x =>
    exact ⟨ns, h.quiet (h.accounted.toOwned.quiet_prefixMatchWithCounts orders x hsafe) fun _ _ => rfl⟩
  | prefixMatchTenant x t => exact ⟨ns, h.quiet (quiet_prefixMatchTenant s x t) fun _ _ => rfl⟩
  | evictTenantBySize orders heap m => exact h.evictTenantBySize orders heap m
  | removeTenant orders t => exact h.removeTenant orders t

end Step

theorem run_kept (hsafe : SafeRun epoch ops) : ∃ ns, Kept ops (run epoch ops) ns := by
  induction ops using reverseRecOn with
  | nil =>
    have hacc := accounted_new epoch
    refine ⟨{rootId}, hacc, fun hi => ?_, fun _ t x => ⟨?_, ?_⟩⟩
    · cases hi
    · rintro ⟨i, -, hi, -⟩
      cases hi
    · rintro ⟨y, hy, -⟩
      cases hy
  | append_singleton ops op ih =>
    obtain ⟨ns, hns⟩ := ih fun done o rest heq => hsafe done o (rest ++ [op]) (by simp [heq])
    have hrun : run epoch (ops ++ [op]) = op.apply (run epoch ops) := by
      rw [run, foldl_append]
      rfl
    rw [hrun]
    exact hns.apply op (hsafe ops op [] rfl)

/-- In every run whose lookups are safe: the invariants hold, a lookup for one tenant
finds the longest text it shares with what was inserted for the tenant (unless there
were evictions), an eviction brings every tenant down to the size, and a removal takes
every node from the tenant. -/
theorem prefixTree_accounts_and_matches (epoch : UInt64) (ops : List Op) (hsafe : SafeRun epoch ops) :
    (run epoch ops).Invariants (fun t => ∃ text, Op.insert text t ∈ ops) ∧
    ((∀ op ∈ ops, ¬op.Evicts) → ∀ x t,
      LongestShared x (insertedTexts t ops) ((run epoch ops).prefixMatchTenant x t).2) ∧
    (∀ orders heap m, ((run epoch ops).evictTenantBySize orders heap m).Invariants
        (fun t => ∃ text, Op.insert text t ∈ ops) ∧
      ∀ t n, ((run epoch ops).evictTenantBySize orders heap m).tenantCharCount.lookup t = some n →
        n ≤ m) ∧
    ∀ orders t, ((run epoch ops).removeTenant orders t).Invariants
        (fun t => ∃ text, Op.insert text t ∈ ops) ∧
      ∀ i, ((run epoch ops).removeTenant orders t).InTree i →
        ((run epoch ops).removeTenant orders t).has i t = false := by
  obtain ⟨ns, h⟩ := run_kept hsafe
  refine ⟨h.accounted.invariants fun _ _ hi => h.named hi, fun hno x t => ?_, fun orders heap m => ?_,
    fun orders t => ?_⟩
  · have hlong := h.accounted.toOwned.prefixMatchTenant x t
    have hcov := h.covered hno t
    refine ⟨hlong.initial, hlong.covered.imp_right (hcov _).mp, fun y hy z hzx hzy => ?_⟩
    exact hlong.longest z hzx ((hcov z).mpr ⟨y, hy, hzy⟩)
  · obtain ⟨ns', hacc, hsize, hhas⟩ := h.accounted.evictTenantBySize orders heap m
    refine ⟨hacc.invariants fun i t hi => h.named (hhas i t hi), fun t n hn => ?_⟩
    rw [hacc.counted t] at hn
    split at hn
    · cases hn
      exact hsize t
    · cases hn
  · obtain ⟨ns', hacc, hhas, -⟩ := h.accounted.removeTenant orders t
    refine ⟨hacc.invariants fun i u hi => h.named ((hhas i u).mp hi).1, fun i _ => ?_⟩
    exact Bool.eq_false_iff.mpr fun hi => ((hhas i t).mp hi).2 rfl

def Orders.ascending : Orders := ⟨.ascending, .ascending⟩

/-- An insertion at epoch 7, and then a lookup that writes an access time. -/
theorem prefixTree_accounts_and_matches_lookup :
    SafeRun 7 [.insert ['a'] "w", .prefixMatchWithCounts .ascending ['a']] ∧
    ((run 7 [.insert ['a'] "w", .prefixMatchWithCounts .ascending ['a']]).removeTenant .ascending
      "w").has rootId "w" = false := by
  have hsafe : SafeRun 7 [.insert ['a'] "w", .prefixMatchWithCounts .ascending ['a']] := by
    intro done op rest heq
    match done, heq with
    | [], heq =>
      cases heq
      exact trivial
    | [_], heq =>
      cases heq
      intro _
      decide +kernel
    | [_, _], heq => cases heq
    | _ :: _ :: _ :: _, heq => cases heq
  exact ⟨hsafe, ((prefixTree_accounts_and_matches 7 _ hsafe).2.2.2 _ _).2 rootId .root⟩

/-- A lookup in a new tree at epoch 0 makes `"empty"` a tenant of the root, which
nobody inserted and nothing is counted for. -/
theorem prefixTree_lookup_adds_empty :
    (run 0 [.prefixMatchWithCounts .ascending ['a']]).has rootId "empty" = true ∧
    (run 0 [.prefixMatchWithCounts .ascending ['a']]).tenantCharCount.lookup "empty" = none ∧
    ¬(run 0 [.prefixMatchWithCounts .ascending ['a']]).Invariants
      (fun t => ∃ text, Op.insert text t ∈ [Op.prefixMatchWithCounts .ascending ['a']]) := by
  have hhas : (run 0 [.prefixMatchWithCounts .ascending ['a']]).has rootId "empty" = true := by
    decide +kernel
  refine ⟨hhas, by decide +kernel, fun hinv => ?_⟩
  obtain ⟨text, htext⟩ := hinv.named .root hhas
  cases mem_singleton.mp htext

end SparkInfer.Gateway
