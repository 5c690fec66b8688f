import SparkInfer.Lib.Index
import SparkInfer.Unified.SessionCoverage

/-!
# Session references are exact

The markers on the nodes and the index of the frontiers say the same set of
(session, frontier node) pairs, and every `session_ref` is the number of those
pairs whose coverage contains the node.  Both survive registering and releasing,
splits, new nodes and deletions, so no assertion of the session code can fail.
-/

namespace SparkInfer.Unified

open Lib List Finset Function AList Tree

variable {S : Type} [DecidableEq S]
variable {order : List NodeId} {node m : NodeId} {splitLen len : Nat} {ct : ComponentType}
variable {st' : SessionState S} {session : S} {cfg : SessionConfig}

namespace SessionState

/-- The (session, frontier node) pairs of the index. -/
def frontier (st : SessionState S) : Finset (S × NodeId) :=
  st.sessionLeaves.keys.toFinset.biUnion fun s => (st.leavesOf s).image fun n => (s, n)

structure Indexed (st : SessionState S) (held : Finset (S × NodeId)) : Prop where
  leaves : ∀ s n, n ∈ st.leavesOf s ↔ (s, n) ∈ held
  ids : ∀ s n, s ∈ st.idsOf n ↔ (s, n) ∈ held
  leaves_ne : ∀ s l, st.sessionLeaves.lookup s = some l → l ≠ ∅
  ids_ne : ∀ n i, st.sessionIds n = some i → i ≠ ∅

variable {st : SessionState S} {t : Tree} {held : Finset (S × NodeId)}
variable {q : S × NodeId} {leaf : NodeId} {ns : List NodeId}

/-! ## The index -/

theorem indexed_iff : st.Indexed held ↔
    Listed st.sessionLeaves.lookup (fun s n => (s, n) ∈ held) ∧
      Listed st.sessionIds fun n s => (s, n) ∈ held := by
  constructor
  · intro h
    exact ⟨fun s => ⟨h.leaves s, fun hl => h.leaves_ne s ∅ hl rfl⟩,
      fun n => ⟨fun s => h.ids s n, fun hi => h.ids_ne n ∅ hi rfl⟩⟩
  · rintro ⟨hl, hi⟩
    exact ⟨fun s => (hl s).1, fun s n => (hi n).1 s, fun s l hs he => (hl s).2 (he ▸ hs),
      fun n i hn he => (hi n).2 (he ▸ hn)⟩

theorem Indexed.mark (h : st.Indexed held) (session : S) (leaf : NodeId) :
    (st.markSessionLeaf session leaf).Indexed (insert (session, leaf) held) := by
  rw [indexed_iff] at h ⊢
  refine ⟨h.1.insert (fun s hs => lookup_insert_ne hs) (lookup_insert _) ?_,
    h.2.insert (fun n hn => update_of_ne hn _ _) (update_self _ _ _) ?_⟩
  · simp [or_comm]
  · simp [or_comm, and_comm]

def unmarked (st : SessionState S) (session : S) (leaf : NodeId) : SessionState S :=
  { st with
    sessionIds := update st.sessionIds leaf
      (if (st.idsOf leaf).erase session = ∅ then none else some ((st.idsOf leaf).erase session))
    sessionLeaves :=
      if (st.leavesOf session).erase leaf = ∅ then st.sessionLeaves.erase session
      else st.sessionLeaves.insert session ((st.leavesOf session).erase leaf) }

theorem Indexed.unmark (h : st.Indexed held) (hq : (session, leaf) ∈ held) :
    st.unmarkSessionLeaf session leaf = .ok (st.unmarked session leaf) ∧
      (st.unmarked session leaf).Indexed (held.erase (session, leaf)) := by
  constructor
  · unfold unmarkSessionLeaf
    rw [if_neg (by rw [not_not, h.leaves]; exact hq), if_neg (by rw [not_not, h.ids]; exact hq)]
    rfl
  rw [indexed_iff] at h ⊢
  refine ⟨h.1.erase (k := session) (x := leaf) (fun s hs => ?_) (by simp [and_comm]) ?_,
    h.2.erase (fun n hn => update_of_ne hn _ _) (by simp [and_comm]) (update_self _ _ _)⟩
  · dsimp only [unmarked]
    split_ifs
    · exact lookup_erase_ne hs
    · exact lookup_insert_ne hs
  · dsimp only [unmarked]
    rw [apply_ite (AList.lookup session), lookup_erase, lookup_insert]
    rfl

theorem Indexed.congr (h : st.Indexed held) (hsame : SameIndex st st') : st'.Indexed held := by
  obtain ⟨hl, hi⟩ := hsame
  rw [indexed_iff] at h ⊢
  rwa [hl, hi]

theorem Covered.congr (h : st.Covered t ct held) (href : st'.sessionRef = st.sessionRef)
    (hlen : st'.sessionLeafCoveredLen = st.sessionLeafCoveredLen) : st'.Covered t ct held := by
  have hcov : st'.coveredLen = st.coveredLen := by
    funext q
    rw [coveredLen, coveredLen, hlen]
  refine ⟨h.mem, ?_, ?_, ?_⟩
  · rw [href]
    exact h.counts.congr fun q _ => (coverage_congr fun _ => by rw [hcov]).symm
  · rw [hcov]
    exact h.recorded
  · rw [hcov]
    exact h.spans

/-- The session state of a component is exact for the pairs `held`. -/
structure Exact (t : Tree) (ct : ComponentType) (st : SessionState S)
    (held : Finset (S × NodeId)) : Prop where
  indexed : st.Indexed held
  covered : st.Covered t ct held

theorem mem_frontier (s : S) (n : NodeId) : (s, n) ∈ st.frontier ↔ n ∈ st.leavesOf s := by
  unfold frontier
  simp only [mem_biUnion, mem_toFinset, mem_image, Prod.mk.injEq]
  constructor
  · rintro ⟨s', -, n', hn', rfl, rfl⟩
    exact hn'
  intro hn
  refine ⟨s, ?_, n, hn, rfl, rfl⟩
  rw [← AList.mem_keys, ← lookup_isSome]
  unfold leavesOf at hn
  cases hl : st.sessionLeaves.lookup s with
  | none =>
    rw [hl] at hn
    simp at hn
  | some l => rfl

theorem Indexed.held_eq (h : st.Indexed held) : held = st.frontier := by
  ext ⟨s, n⟩
  rw [mem_frontier, h.leaves]

/-! ## The operations -/

theorem nearestSessionAncestor_spec (hwf : t.WF) (hmem : leaf ∈ t.arena) (hroot : leaf ≠ t.rootNode)
    {leaves : Finset NodeId} :
    ∀ a ∈ nearestSessionAncestor t leaf leaves, a ∈ leaves ∧ Above t leaf a := by
  intro a ha
  obtain ⟨p, -, hpar⟩ := hwf.parent_mem hmem hroot
  unfold nearestSessionAncestor at ha
  rw [hpar] at ha
  refine ⟨by simpa using find?_some ha, ?_⟩
  exact above_of_mem_parent hwf hmem hroot hpar (mem_of_find?_eq_some ha)

/-- The state after the lookup `self._session_leaves[session_id]`. -/
def touched (st : SessionState S) (session : S) : SessionState S :=
  { st with sessionLeaves := st.sessionLeaves.insert session (st.leavesOf session) }

theorem leavesOf_touched (st : SessionState S) (session : S) :
    (st.touched session).leavesOf = st.leavesOf := by
  funext s
  unfold touched
  rw [leavesOf]
  by_cases hs : s = session
  · subst hs
    rw [lookup_insert, Option.getD_some]
  · rw [lookup_insert_ne hs]
    rfl

theorem SameIndex.mark_touched (hsame : SameIndex (st.touched session) st') :
    SameIndex (st.markSessionLeaf session leaf) (st'.markSessionLeaf session leaf) := by
  obtain ⟨hl, hi⟩ := hsame
  have hleaves : st'.leavesOf session = st.leavesOf session := by
    rw [← leavesOf_touched st session, leavesOf, leavesOf, hl]
  have hids : st'.idsOf leaf = st.idsOf leaf := by
    rw [idsOf, hi]
    rfl
  constructor
  · unfold markSessionLeaf
    simp only [hl, hleaves]
    unfold touched
    rw [insert_insert]
  · unfold markSessionLeaf
    simp only [hi, hids]
    rfl

section

variable (h : st.Exact t ct held)
include h

theorem Exact.register (cfg : SessionConfig) (hwf : t.WF) (session : S)
    {leaf : Option NodeId} (hleaf : ∀ n ∈ leaf, n ∈ t.arena) :
    ∃ st' held', st.registerSessionLeaf cfg t ct session leaf = .ok st' ∧ st'.Exact t ct held' := by
  cases leaf with
  | none => exact ⟨st, held, rfl, h⟩
  | some leaf =>
    have hmem := hleaf leaf rfl
    by_cases hskip : cfg.enableSessionRadixCache = false ∨ leaf = t.rootNode
    · refine ⟨st, held, ?_, h⟩
      simp only [registerSessionLeaf, if_pos hskip]
    have hroot : leaf ≠ t.rootNode := fun hr => hskip (.inr hr)
    have htouched : (st.touched session).Covered t ct held := h.covered.congr rfl rfl
    by_cases hin : leaf ∈ st.leavesOf session
    · refine ⟨st.touched session, held, ?_, ?_, htouched⟩
      · simp only [registerSessionLeaf, if_neg hskip, if_pos hin]
        rfl
      obtain ⟨hl, hi⟩ := indexed_iff.mp h.indexed
      refine indexed_iff.mpr ⟨hl.edit (fun s hs => lookup_insert_ne hs) (fun _ _ _ => .rfl) ?_, hi⟩
      unfold touched
      rw [lookup_insert]
      exact ⟨(hl session).1, fun he => ne_empty_of_mem hin (Option.some.inj he)⟩
    have hq : (session, leaf) ∉ held := fun hq => hin ((h.indexed.leaves session leaf).mpr hq)
    obtain ⟨old, hold⟩ : ∃ old, old = nearestSessionAncestor t leaf (st.leavesOf session) :=
      ⟨_, rfl⟩
    have hspec : ∀ a ∈ old, (session, a) ∈ held ∧ Above t leaf a := by
      intro a ha
      rw [hold] at ha
      obtain ⟨hal, habove⟩ := nearestSessionAncestor_spec hwf hmem hroot a ha
      exact ⟨(h.indexed.leaves session a).mp hal, habove⟩
    obtain ⟨st₁, hrun₁, hsame₁, hcov₁⟩ := htouched.advance cfg hwf hq hmem hroot hspec
    have hindex₁ := (h.indexed.mark session leaf).congr hsame₁.mark_touched
    have hcov₁' : (st₁.markSessionLeaf session leaf).Covered t ct
        (advanced held session leaf old) := hcov₁.congr rfl rfl
    have hrun : st.registerSessionLeaf cfg t ct session (some leaf) =
        ((st.touched session).advanceSessionCoverage cfg t ct session leaf old >>= fun st =>
          old.elim (.ok (st.markSessionLeaf session leaf))
            ((st.markSessionLeaf session leaf).unmarkSessionLeaf session)) := by
      rw [registerSessionLeaf, if_neg hskip, if_neg hin, hold]
      cases nearestSessionAncestor t leaf (st.leavesOf session) <;> rfl
    rw [hrun, hrun₁]
    cases old with
    | none => exact ⟨_, _, rfl, hindex₁, hcov₁'⟩
    | some a =>
      obtain ⟨hunmark, hindex₂⟩ := hindex₁.unmark (mem_insert_of_mem (hspec a rfl).1)
      exact ⟨_, _, hunmark, hindex₂, hcov₁'.congr rfl rfl⟩

/-- One round of a loop that takes the pair `(session, leaf)` away. -/
theorem Exact.dec_unmark (hwf : t.WF) (hq : (session, leaf) ∈ held) :
    ∃ st₁ st₂, st.decSessionCoverage t ct session leaf = .ok st₁ ∧
      st₁.unmarkSessionLeaf session leaf = .ok st₂ ∧
      st₂.Exact t ct (held.erase (session, leaf)) := by
  obtain ⟨st₁, hrun₁, hsame₁, hcov₁⟩ := h.covered.dec hwf hq
  obtain ⟨hunmark, hindex⟩ := (h.indexed.congr hsame₁).unmark hq
  exact ⟨st₁, _, hrun₁, hunmark, hindex, hcov₁.congr rfl rfl⟩

theorem Exact.release (hwf : t.WF) (session : S) (hnodup : order.Nodup)
    (horder : ∀ n ∈ order, (session, n) ∈ held) :
    ∃ st' held', releaseSession t ct session order st = .ok st' ∧ st'.Exact t ct held' ∧
      ∀ q, q ∈ held' ↔ q ∈ held ∧ ¬ (q.1 = session ∧ q.2 ∈ order) := by
  induction order generalizing st held with
  | nil => exact ⟨st, held, rfl, h, by simp⟩
  | cons leaf rest ih =>
    obtain ⟨hnot, hrest⟩ := nodup_cons.mp hnodup
    obtain ⟨st₁, st₂, hrun₁, hrun₂, h₂⟩ := h.dec_unmark hwf (horder leaf (by simp))
    have horder₂ : ∀ n ∈ rest, (session, n) ∈ held.erase (session, leaf) := by
      intro n hn
      refine mem_erase.mpr ⟨?_, horder n (by simp [hn])⟩
      intro heq
      have hnl : n = leaf := (Prod.ext_iff.mp heq).2
      exact hnot (hnl ▸ hn)
    obtain ⟨st', held', hrun, h', hheld⟩ := ih h₂ hrest horder₂
    refine ⟨st', held', ?_, h', ?_⟩
    · rw [releaseSession, hrun₁]
      change (unmarkSessionLeaf st₁ session leaf >>= _) = _
      rwa [hrun₂]
    · intro q
      rw [hheld q, Finset.mem_erase, Ne, Prod.ext_iff, List.mem_cons]
      tauto

omit h in
theorem firstAccepted_mem {validator : MatchValidator} {asked : List NodeId} {a : NodeId}
    (h : firstAccepted validator asked ns = some a) : a ∈ ns := by
  induction ns generalizing asked with
  | nil => cases h
  | cons n ns ih =>
    rw [firstAccepted] at h
    split_ifs at h
    · cases h
      simp
    · exact mem_cons_of_mem n (ih h)

theorem Exact.discard (hwf : t.WF)
    (validator : MatchValidator) {order : List S} (hnodup : order.Nodup)
    (horder : ∀ s ∈ order, (s, node) ∈ held) :
    ∃ st' held', discardDeletedSessionLeaf cfg t ct validator node order st = .ok st' ∧
      st'.Exact t ct held' ∧ ∀ s, (s, node) ∈ held' ↔ (s, node) ∈ held ∧ s ∉ order := by
  induction order generalizing st held with
  | nil => exact ⟨st, held, rfl, h, by simp⟩
  | cons session rest ih =>
    obtain ⟨hnot, hrest⟩ := nodup_cons.mp hnodup
    have hq := horder session (by simp)
    obtain ⟨hmem, hroot⟩ := h.covered.mem _ hq
    obtain ⟨p, -, hpar⟩ := hwf.parent_mem hmem hroot
    obtain ⟨fallback, hfall⟩ : ∃ fallback, fallback =
        (findReusableSessionLeaf t validator (t.parent node)).filter
          fun cur => decide (cur ∉ st.leavesOf session) := ⟨_, rfl⟩
    have hback : ∀ a ∈ fallback, (session, a) ∉ held ∧ Above t node a := by
      intro a ha
      rw [hfall, Option.mem_def, Option.filter_eq_some_iff, hpar] at ha
      obtain ⟨hfind, hfresh⟩ := ha
      refine ⟨?_, above_of_mem_parent hwf hmem hroot hpar (firstAccepted_mem hfind)⟩
      rw [← h.indexed.leaves]
      simpa using hfresh
    obtain ⟨st₁, hrun₁, hsame₁, hcov₁⟩ := h.covered.recede cfg hwf hq hback
    obtain ⟨hunmark, hindex₂⟩ := (h.indexed.congr hsame₁).unmark hq
    have hcov₂ : (st₁.unmarked session node).Covered t ct (receded held session node fallback) :=
      hcov₁.congr rfl rfl
    obtain ⟨st₃, hst₃⟩ : ∃ st₃, st₃ = fallback.elim (st₁.unmarked session node)
        ((st₁.unmarked session node).markSessionLeaf session) := ⟨_, rfl⟩
    have h₃ : st₃.Exact t ct (receded held session node fallback) := by
      rw [hst₃]
      cases fallback with
      | none => exact ⟨hindex₂, hcov₂⟩
      | some a => exact ⟨hindex₂.mark session a, hcov₂.congr rfl rfl⟩
    -- the fallback is another node, so only `session` leaves `node`
    have hself : ∀ s, (s, node) ∈ receded held session node fallback ↔
        s ≠ session ∧ (s, node) ∈ held := by
      intro s
      cases fallback with
      | none =>
        rw [receded, Finset.mem_erase, Ne]
        simp
      | some a =>
        have hne := ((hback a rfl).2.mem hwf hmem).2.2
        rw [receded, Finset.mem_insert, Finset.mem_erase, Ne]
        simp [hne.symm]
    have horder₃ : ∀ s ∈ rest, (s, node) ∈ receded held session node fallback := by
      intro s hs
      refine (hself s).mpr ⟨?_, horder s (by simp [hs])⟩
      rintro rfl
      exact hnot hs
    obtain ⟨st', held', hrun, h', hheld⟩ := ih h₃ hrest horder₃
    refine ⟨st', held', ?_, h', ?_⟩
    · rw [discardDeletedSessionLeaf, if_neg (by rw [not_not, h.indexed.leaves]; exact hq), ← hfall]
      change (recedeSessionCoverage cfg t ct st session node fallback >>= _) = _
      rw [hrun₁]
      change (unmarkSessionLeaf st₁ session node >>= _) = _
      rw [hunmark, ← hrun, hst₃]
      cases fallback <;> rfl
    · intro s
      rw [hheld s, hself s, List.mem_cons]
      tauto

end

/-! ## Edits of the tree -/

theorem Indexed.newIds (h : st.Indexed held) (hm : ∀ q ∈ held, q.2 ≠ m)
    (hleaves : st'.sessionLeaves = st.sessionLeaves)
    (hids : st'.sessionIds = update st.sessionIds m none) : st'.Indexed held := by
  rw [indexed_iff] at h ⊢
  rw [hleaves, hids]
  refine ⟨h.1, h.2.edit (fun n hn => update_of_ne hn _ _) (fun _ _ _ => .rfl)
    ⟨fun s => ?_, by simp⟩⟩
  have hnot : (s, m) ∉ held := fun hq => hm _ hq rfl
  simp [hnot]

theorem Covered.fresh_ne (h : st.Covered t ct held) (hwf : t.WF) : ∀ q ∈ held, q.2 ≠ t.counter :=
  fun q hq => hwf.ne_counter (h.mem q hq).1

theorem tokens_splitClimb {keyLen : NodeId → Nat} {c : NodeId} (hlt : splitLen ≤ keyLen c)
    (hmc : m ≠ c) (hm : m ∉ ns) : tokens (update (update keyLen m splitLen) c (keyLen c - splitLen))
      (splitClimb c m ns) = tokens keyLen ns := by
  induction ns with
  | nil => rfl
  | cons n ns ih =>
    rw [List.mem_cons, not_or] at hm
    have ih := ih hm.2
    unfold tokens at ih ⊢
    by_cases hn : n = c
    · subst hn
      rw [splitClimb_cons_self]
      simp only [List.map_cons, List.sum_cons, update_self, update_of_ne hmc]
      omega
    · rw [splitClimb_cons_of_ne hn]
      simp only [List.map_cons, List.sum_cons, ih, update_of_ne hn, update_of_ne (Ne.symm hm.1)]

theorem Covered.counter_not_mem (h : st.Covered t ct held) (hwf : t.WF) (hq : q ∈ held) :
    t.counter ∉ st.coverage t ct q := by
  obtain ⟨hmem, -⟩ := h.mem q hq
  intro hin
  apply hwf.counter_not_mem
  cases ct with
  | full =>
    rw [coverage_full, mem_toFinset] at hin
    exact (hwf.mem_climb hmem hin).1
  | swa =>
    unfold coverage at hin
    rw [mem_toFinset] at hin
    obtain ⟨ys, hys⟩ := spanned_initial t.keyLen ((st.coveredLen q).getD 0) 0 (t.climb q.2)
    refine (hwf.mem_climb hmem ?_).1
    rw [hys]
    exact mem_append_left ys hin
  | mamba =>
    rw [coverage_mamba, Finset.mem_singleton] at hin
    rwa [hin]

section Split

variable {child : NodeId} (hwf : t.WF) (hc : child ∈ t.arena) (hne : child ≠ t.rootNode)
  (hpos : 0 < splitLen) (hlt : splitLen < t.keyLen child)
include hwf hc hne hpos hlt

theorem Spans.splitNode (hmem : leaf ∈ t.arena) {xs ys : List NodeId} (hclimb : t.climb leaf = xs ++ ys) :
    (t.splitNode child splitLen).climb leaf =
        splitClimb child t.counter xs ++ splitClimb child t.counter ys ∧
      tokens (t.splitNode child splitLen).keyLen (splitClimb child t.counter xs) =
        tokens t.keyLen xs := by
  constructor
  · rw [hwf.climb_splitNode hc hne hpos hlt hmem, hclimb, splitClimb_append]
  · refine tokens_splitClimb hlt.le (hwf.ne_counter hc).symm ?_
    intro hin
    exact hwf.counter_not_mem (hwf.mem_climb hmem (by rw [hclimb]; simp [hin])).1

/-- Whoever covers a node of `FULL` or `SWA` covers both parts after a split. -/
theorem Covered.mem_coverage_splitNode (h : st.Covered t ct held) (hct : ct ≠ .mamba) (hq : q ∈ held)
    (n : NodeId) :
    n ∈ (st.splitNode ct t.counter child).coverage (t.splitNode child splitLen) ct q ↔
      n ∈ st.coverage t ct q ∨ (n = t.counter ∧ child ∈ st.coverage t ct q) := by
  obtain ⟨hmem, -⟩ := h.mem q hq
  cases ct with
  | full =>
    rw [coverage_full, coverage_full, hwf.climb_splitNode hc hne hpos hlt hmem]
    simp only [mem_toFinset, mem_splitClimb]
  | swa =>
    obtain ⟨len, hlen⟩ := (h.recorded rfl q).mpr hq
    obtain ⟨xs, ys, hclimb, -, htok⟩ := h.spans rfl q len hlen
    obtain ⟨hclimb', htok'⟩ := Spans.splitNode hwf hc hne hpos hlt hmem hclimb
    have hlen' : (st.splitNode .swa t.counter child).coveredLen q = some len := hlen
    rw [coverage_swa hlen, coverage_swa hlen', Spans.spanned_eq hwf hmem hclimb htok,
      Spans.spanned_eq (hwf.splitNode hc hne hpos hlt) (mem_insert_of_mem hmem) hclimb'
        (htok'.trans htok)]
    simp only [mem_toFinset, mem_splitClimb]
  | mamba => exact absurd rfl hct

theorem Exact.splitNode (h : st.Exact t ct held) :
    (st.splitNode ct t.counter child).Exact (t.splitNode child splitLen) ct held := by
  refine ⟨h.indexed.newIds (h.covered.fresh_ne hwf) rfl rfl, ?_, ?_, ?_, ?_⟩
  · exact fun q hq => ⟨mem_insert_of_mem (h.covered.mem q hq).1, (h.covered.mem q hq).2⟩
  · by_cases hct : ct = .mamba
    · subst hct
      exact h.covered.counts.fresh fun q hq => h.covered.counter_not_mem hwf hq
    have hcov := fun q hq =>
      h.covered.mem_coverage_splitNode hwf hc hne hpos hlt hct (q := q) hq
    refine h.covered.counts.split (c := child) (m := t.counter) ?_ ?_ ?_
    · intro q hq n hn
      rw [hcov q hq]
      simp [hn]
    · intro q hq
      rw [hcov q hq]
      simp [h.covered.counter_not_mem hwf hq]
    · cases ct with
      | full | swa => rfl
      | mamba => exact absurd rfl hct
  · exact h.covered.recorded
  · intro hswa q len hlen
    obtain ⟨hmem, -⟩ := h.covered.mem q ((h.covered.recorded hswa q).mp ⟨len, hlen⟩)
    obtain ⟨xs, ys, hclimb, hxs, htok⟩ := h.covered.spans hswa q len hlen
    obtain ⟨hclimb', htok'⟩ := Spans.splitNode hwf hc hne hpos hlt hmem hclimb
    refine ⟨_, _, hclimb', ?_, htok'.trans htok⟩
    obtain ⟨x, xs, rfl⟩ := exists_cons_of_ne_nil hxs
    by_cases hx : x = child
    · subst hx
      rw [splitClimb_cons_self]
      simp
    · rw [splitClimb_cons_of_ne hx]
      simp

end Split

theorem Covered.ofClimbs {t' : Tree} (h : st.Covered t ct held)
    (hmem : ∀ q ∈ held, q.2 ∈ t'.arena ∧ q.2 ≠ t'.rootNode)
    (hclimb : ∀ q ∈ held, t'.climb q.2 = t.climb q.2)
    (hlen : ∀ q ∈ held, ∀ n ∈ t.climb q.2, t'.keyLen n = t.keyLen n) : st.Covered t' ct held := by
  have htok : ∀ q ∈ held, ∀ xs ys, t.climb q.2 = xs ++ ys → tokens t'.keyLen xs = tokens t.keyLen xs := by
    intro q hq xs ys hxy
    unfold tokens
    congr 1
    refine map_congr_left fun n hn => hlen q hq n ?_
    rw [hxy]
    exact mem_append_left ys hn
  have hspan : ∀ q ∈ held, ∀ span covered ns, ns ⊆ t.climb q.2 →
      spanned t'.keyLen span covered ns = spanned t.keyLen span covered ns := by
    intro q hq span covered ns hns
    induction ns generalizing covered with
    | nil => rfl
    | cons n ns ih =>
      rw [spanned, spanned, hlen q hq n (hns (by simp)),
        ih _ fun x hx => hns (mem_cons_of_mem n hx)]
  refine ⟨hmem, h.counts.congr ?_, h.recorded, ?_⟩
  · intro q hq
    cases ct with
    | full => rw [coverage_full, coverage_full, hclimb q hq]
    | swa =>
      unfold coverage
      rw [hclimb q hq, hspan q hq _ _ _ (List.Subset.refl _)]
    | mamba => rfl
  · intro hswa q len hq
    have hin := (h.recorded hswa q).mp ⟨len, hq⟩
    obtain ⟨xs, ys, hxy, hxs, hsum⟩ := h.spans hswa q len hq
    exact ⟨xs, ys, by rw [hclimb q hin, hxy], hxs, by rw [htok q hin xs ys hxy, hsum]⟩

theorem Exact.addNode (h : st.Exact t ct held) (hwf : t.WF) {p : NodeId} (hp : p ∈ t.arena)
    (hlen : 0 < len) : (st.newNode t.counter).Exact (t.addNode p len) ct held := by
  refine ⟨h.indexed.newIds (h.covered.fresh_ne hwf) rfl rfl, ?_⟩
  have hnew : (st.newNode t.counter).Covered t ct held :=
    { h.covered with counts := h.covered.counts.fresh fun q hq => h.covered.counter_not_mem hwf hq }
  refine hnew.ofClimbs ?_ ?_ ?_
  · exact fun q hq => ⟨mem_insert_of_mem (h.covered.mem q hq).1, (h.covered.mem q hq).2⟩
  · exact fun q hq => hwf.climb_addNode hp hlen (h.covered.mem q hq).1
  · intro q hq n hn
    have hnm := hwf.ne_counter (hwf.mem_climb (h.covered.mem q hq).1 hn).1
    exact update_of_ne hnm _ _

theorem Exact.removeNode (h : st.Exact t ct held) (hwf : t.WF) {x : NodeId} (hx : x ∈ t.arena)
    (hxr : x ≠ t.rootNode) (hleaf : t.children x = ∅) (hheld : ∀ s, (s, x) ∉ held) :
    st.Exact (t.removeNode x) ct held := by
  have hne : ∀ q ∈ held, q.2 ≠ x := by
    rintro ⟨s, n⟩ hq rfl
    exact hheld s hq
  refine ⟨h.indexed, h.covered.ofClimbs ?_ ?_ fun _ _ _ _ => rfl⟩
  · exact fun q hq =>
      ⟨mem_erase.mpr ⟨hne q hq, (h.covered.mem q hq).1⟩, (h.covered.mem q hq).2⟩
  · exact fun q hq => hwf.climb_removeNode hx hxr hleaf (h.covered.mem q hq).1 (hne q hq)

theorem exact_blank : (blank : SessionState S).Exact t ct ∅ := by
  refine ⟨indexed_iff.mpr ⟨fun s => ?_, fun n => ?_⟩, ?_, Counts.empty _, ?_, ?_⟩
  · simp [blank]
  · simp [blank]
  · simp
  · intro _ q
    simp [coveredLen, blank]
  · intro _ q len hlen
    simp [coveredLen, blank] at hlen

/-! ## What exactness says -/

theorem mem_recorded : q ∈ st.recorded ↔ ∃ len, st.coveredLen q = some len := by
  obtain ⟨s, n⟩ := q
  unfold recorded coveredLen
  simp only [mem_biUnion, mem_toFinset, mem_image, Prod.mk.injEq, Option.bind_eq_some_iff]
  constructor
  · rintro ⟨s', -, n', hn', rfl, rfl⟩
    cases hby : st.sessionLeafCoveredLen.lookup s' with
    | none =>
      rw [hby] at hn'
      simp at hn'
    | some byLeaf =>
      rw [hby] at hn'
      obtain ⟨len, hlen⟩ := Option.isSome_iff_exists.mp (lookup_isSome.mpr hn')
      exact ⟨len, byLeaf, rfl, hlen⟩
  · rintro ⟨len, byLeaf, hby, hlen⟩
    refine ⟨s, ?_, n, ?_, rfl, rfl⟩
    · rw [← AList.mem_keys, ← lookup_isSome, hby]
      rfl
    · rw [hby, Option.getD_some, ← AList.mem_keys, ← lookup_isSome, hlen]
      rfl

theorem Spans.pos (hwf : t.WF) (hmem : leaf ∈ t.arena) (h : Spans t leaf len) : 0 < len := by
  obtain ⟨xs, ys, hclimb, hne, rfl⟩ := h
  obtain ⟨x, xs, rfl⟩ := exists_cons_of_ne_nil hne
  obtain ⟨hx, hxr⟩ := hwf.mem_climb hmem (by rw [hclimb]; simp : x ∈ t.climb leaf)
  have hpos := hwf.keyLen_pos x hx hxr
  simp only [tokens, List.map_cons, List.sum_cons]
  omega

omit [DecidableEq S] in
theorem biUnion_none {α β : Type} [DecidableEq β] {s : Finset α} {f : α → Finset β}
    (h : ∀ a ∈ s, f a = ∅) : s.biUnion f = ∅ := by
  rw [biUnion_congr rfl h]
  ext b
  simp

theorem Exact.validate (h : st.Exact t ct held) (hwf : t.WF) :
    st.validateSessionState ct t.arena = ∅ := by
  have hleaves : ∀ s n, n ∈ st.leavesOf s → n ∈ t.arena ∧ s ∈ st.idsOf n := by
    intro s n hn
    rw [h.indexed.leaves] at hn
    exact ⟨(h.covered.mem _ hn).1, (h.indexed.ids s n).mpr hn⟩
  have hindex : ∀ s, s ∈ st.sessionLeaves.keys.toFinset → st.leavesOf s ≠ ∅ := by
    intro s hs
    rw [mem_toFinset] at hs
    obtain ⟨l, hl⟩ := Option.isSome_iff_exists.mp (lookup_isSome.mpr hs)
    rw [leavesOf, hl]
    exact h.indexed.leaves_ne s l hl
  have href : ∀ n, ¬ st.sessionRef n < 0 := by
    intro n
    rw [h.covered.counts n]
    omega
  unfold validateSessionState
  rw [union_eq_empty, union_eq_empty]
  refine ⟨⟨?_, ?_⟩, ?_⟩
  · apply biUnion_none
    intro s hs
    rw [if_neg (hindex s hs), Finset.empty_union]
    apply biUnion_none
    intro n hn
    obtain ⟨hmem, hid⟩ := hleaves s n hn
    simp [hmem, hid]
  · apply biUnion_none
    intro n _
    have hids : st.sessionIds n ≠ some ∅ := fun hi => h.indexed.ids_ne n ∅ hi rfl
    rw [if_neg (href n), if_neg hids, Finset.empty_union, Finset.empty_union]
    apply biUnion_none
    intro s hs
    rw [h.indexed.ids, ← h.indexed.leaves] at hs
    simp [hs]
  cases ct with
  | full | mamba => rfl
  | swa =>
    rw [union_eq_empty]
    constructor
    · apply biUnion_none
      intro q hq
      obtain ⟨len, hlen⟩ := (mem_recorded).mp hq
      have hin := (h.covered.recorded rfl q).mp ⟨len, hlen⟩
      have hleaf := (h.indexed.leaves q.1 q.2).mpr hin
      have hpos := Spans.pos hwf (h.covered.mem q hin).1 (h.covered.spans rfl q len hlen)
      rw [hlen]
      simp [hleaf, hpos.ne']
    · apply biUnion_none
      intro s _
      apply biUnion_none
      intro n hn
      rw [h.indexed.leaves, ← h.covered.recorded rfl, ← mem_recorded] at hn
      simp [hn]

theorem Exact.ref_full (h : st.Exact t .full held) (n : NodeId) :
    st.sessionRef n = (st.frontier.filter fun q => n ∈ t.climb q.2).card := by
  rw [h.covered.counts n, load, h.indexed.held_eq]
  simp only [coverage_full, mem_toFinset]

theorem Exact.ref_mamba (h : st.Exact t .mamba held) (n : NodeId) : st.sessionRef n =
      (st.sessionLeaves.keys.toFinset.filter fun s => n ∈ st.leavesOf s).card := by
  rw [h.covered.counts n, h.indexed.held_eq]
  congr 1
  refine card_bij (fun q _ => q.1) ?_ ?_ ?_
  · rintro ⟨s, n'⟩ hq
    rw [Finset.mem_filter, coverage_mamba, Finset.mem_singleton] at hq
    obtain ⟨hfront, rfl⟩ := hq
    have hn := (mem_frontier s n).mp hfront
    refine mem_filter.mpr ⟨?_, hn⟩
    unfold frontier at hfront
    simp only [mem_biUnion, mem_image] at hfront
    obtain ⟨s', hs', -, -, rfl, -⟩ := hfront
    exact hs'
  · rintro ⟨s, n'⟩ hq ⟨s', n''⟩ hq' heq
    rw [Finset.mem_filter, coverage_mamba, Finset.mem_singleton] at hq hq'
    exact Prod.ext heq (hq.2.symm.trans hq'.2)
  · intro s hs
    obtain ⟨-, hn⟩ := Finset.mem_filter.mp hs
    refine ⟨(s, n), mem_filter.mpr ⟨(mem_frontier s n).mpr hn, ?_⟩, rfl⟩
    rw [coverage_mamba, Finset.mem_singleton]

theorem Exact.ref_swa (h : st.Exact t .swa held) (n : NodeId) :
    st.sessionRef n = (st.recorded.filter fun q =>
      n ∈ spanned t.keyLen ((st.coveredLen q).getD 0) 0 (t.climb q.2)).card := by
  have hheld : held = st.recorded := by
    ext q
    rw [mem_recorded, h.covered.recorded rfl]
  rw [h.covered.counts n, load, hheld]
  simp only [coverage, mem_toFinset]

theorem Exact.ref_zero (h : st.Exact t ct held) (hnone : ∀ s, st.leavesOf s = ∅) (n : NodeId) :
    st.sessionRef n = 0 := by
  have hempty : held = ∅ := by
    rw [eq_empty_iff_forall_notMem]
    rintro ⟨s, m⟩ hq
    rw [← h.indexed.leaves, hnone s] at hq
    simp at hq
  have hcounts := h.covered.counts
  rw [hempty] at hcounts
  exact hcounts n

end SessionState

/-! ## Runs -/

namespace SessionWorld

open SessionState

variable {w w' : SessionWorld S}

structure Inv (cfg : SessionConfig) (w : SessionWorld S) : Prop where
  wf : w.tree.WF
  exact : ∀ ct ∈ cfg.components, ∃ held, (w.component ct).Exact w.tree ct held

theorem Inv.onComponent (h : w.Inv cfg) {f : SessionState S → Except SessionError (SessionState S)}
    {held' : Finset (S × NodeId)} (hf : f (w.component ct) = .ok st')
    (hst' : st'.Exact w.tree ct held') : ∃ w', w.onComponent ct f = .ok w' ∧ w'.tree = w.tree ∧
      w'.component = update w.component ct st' ∧ w'.Inv cfg := by
  refine ⟨{ w with component := update w.component ct st' }, ?_, rfl, rfl, h.wf, ?_⟩
  · rw [SessionWorld.onComponent, hf]
    rfl
  intro ct' hct'
  by_cases hc : ct' = ct
  · subst hc
    refine ⟨held', ?_⟩
    simpa using hst'
  · simpa [hc] using h.exact ct' hct'

/-- The component loop clears the markers of `node` in every component it visits. -/
theorem Inv.discardAll (h : w.Inv cfg) (validator : ComponentType → MatchValidator)
    {order : ComponentType → List S} {cts : List ComponentType} (hnodup : cts.Nodup)
    (hsub : ∀ ct ∈ cts, ct ∈ cfg.components)
    (horder : ∀ ct ∈ cts, Lists (order ct) ((w.component ct).idsOf node)) :
    ∃ w', discardAll cfg node validator order cts w = .ok w' ∧ w'.tree = w.tree ∧ w'.Inv cfg ∧
      (∀ ct ∈ cts, (w'.component ct).idsOf node = ∅) ∧
      ∀ ct, ct ∉ cts → w'.component ct = w.component ct := by
  induction cts generalizing w with
  | nil => exact ⟨w, rfl, rfl, h, by simp, fun _ _ => rfl⟩
  | cons ct cts ih =>
    obtain ⟨hnot, hrest⟩ := nodup_cons.mp hnodup
    obtain ⟨held, hexact⟩ := h.exact ct (hsub ct (by simp))
    obtain ⟨hnd, hlist⟩ := horder ct (by simp)
    have hids : ∀ s, s ∈ order ct ↔ (s, node) ∈ held := by
      intro s
      rw [← hexact.indexed.ids, ← hlist, mem_toFinset]
    obtain ⟨st', held', hrun, hexact', hheld⟩ :=
      hexact.discard h.wf (validator ct) hnd fun s hs => (hids s).mp hs
    obtain ⟨w₁, hrun₁, htree₁, hcomp₁, hinv₁⟩ := h.onComponent hrun hexact'
    have hother : ∀ ct', ct' ≠ ct → w₁.component ct' = w.component ct' := by
      intro ct' hne
      rw [hcomp₁, update_of_ne hne]
    have hcleared : (w₁.component ct).idsOf node = ∅ := by
      rw [hcomp₁, update_self, eq_empty_iff_forall_notMem]
      intro s hs
      rw [hexact'.indexed.ids, hheld, hids] at hs
      exact hs.2 hs.1
    obtain ⟨w₂, hrun₂, htree₂, hinv₂, hclear₂, hsame₂⟩ := ih hinv₁ hrest
      (fun ct' hct' => hsub ct' (by simp [hct']))
      (fun ct' hct' => by
        rw [hother ct' fun hne => hnot (hne ▸ hct')]
        exact horder ct' (by simp [hct']))
    refine ⟨w₂, ?_, htree₂.trans htree₁, hinv₂, ?_, ?_⟩
    · rwa [SessionWorld.discardAll, hrun₁]
    · intro ct' hct'
      rcases mem_cons.mp hct' with rfl | hct'
      · rwa [hsame₂ ct' hnot]
      · exact hclear₂ ct' hct'
    · intro ct' hct'
      rw [List.mem_cons, not_or] at hct'
      rw [hsame₂ ct' hct'.2, hother ct' hct'.1]

theorem Inv.step (h : w.Inv cfg) {op : SessionOp S} (legal : w.Legal cfg op) :
    ∃ w', w.step cfg op = .ok w' ∧ w'.Inv cfg := by
  cases op with
  | register ct session leaf =>
    obtain ⟨hct, hleaf⟩ := legal
    obtain ⟨held, hexact⟩ := h.exact ct hct
    obtain ⟨st', held', hrun, hexact'⟩ := hexact.register cfg h.wf session hleaf
    obtain ⟨w', hw', -, -, hinv⟩ := h.onComponent
      (f := fun st => st.registerSessionLeaf cfg w.tree ct session leaf) hrun hexact'
    exact ⟨w', hw', hinv⟩
  | release ct session order =>
    obtain ⟨hct, hnodup, hlist⟩ := legal
    obtain ⟨held, hexact⟩ := h.exact ct hct
    have horder : ∀ n ∈ order, (session, n) ∈ held := by
      intro n hn
      rwa [← hexact.indexed.leaves, ← hlist, mem_toFinset]
    obtain ⟨st', held', hrun, hexact', -⟩ := hexact.release h.wf session hnodup horder
    obtain ⟨w', hw', -, -, hinv⟩ := h.onComponent hrun hexact'
    exact ⟨w', hw', hinv⟩
  | split child splitLen =>
    obtain ⟨hc, hne, hpos, hlt⟩ := legal
    refine ⟨_, rfl, h.wf.splitNode hc hne hpos hlt, ?_⟩
    intro ct hct
    obtain ⟨held, hexact⟩ := h.exact ct hct
    exact ⟨held, hexact.splitNode h.wf hc hne hpos hlt⟩
  | addNode parent keyLen =>
    obtain ⟨hp, hlen⟩ := legal
    refine ⟨_, rfl, h.wf.addNode hp hlen, ?_⟩
    intro ct hct
    obtain ⟨held, hexact⟩ := h.exact ct hct
    exact ⟨held, hexact.addNode h.wf hp hlen⟩
  | delete node validator order =>
    obtain ⟨hmem, hroot, hleaf, horder⟩ := legal
    obtain ⟨w₁, hrun₁, htree₁, hinv₁, hclear₁, -⟩ :=
      h.discardAll validator cfg.components_nodup (fun _ hct => hct) horder
    refine ⟨{ w₁ with tree := w₁.tree.removeNode node }, ?_, ?_, ?_⟩
    · rw [SessionWorld.step, hrun₁]
      rfl
    · rw [htree₁]
      exact h.wf.removeNode hmem hroot hleaf
    intro ct hct
    obtain ⟨held, hexact⟩ := hinv₁.exact ct hct
    refine ⟨held, ?_⟩
    rw [htree₁] at hexact ⊢
    refine hexact.removeNode h.wf hmem hroot hleaf ?_
    intro s hs
    rw [← hexact.indexed.ids, hclear₁ ct hct] at hs
    simp at hs

theorem Reach.inv (h : w.Reach cfg) : w.Inv cfg := by
  induction h with
  | init counter => exact ⟨.ofFresh counter, fun ct _ => ⟨∅, exact_blank⟩⟩
  | step _ legal run ih =>
    obtain ⟨w', hw', hinv⟩ := ih.step legal
    rw [run] at hw'
    cases hw'
    exact hinv

theorem Inv.release_leaves (h : w.Inv cfg) (legal : w.Legal cfg (.release ct session order))
    (run : w.step cfg (.release ct session order) = .ok w') (s : S) :
    (w'.component ct).leavesOf s = if s = session then ∅ else (w.component ct).leavesOf s := by
  obtain ⟨hct, hnodup, hlist⟩ := legal
  obtain ⟨held, hexact⟩ := h.exact ct hct
  have hmem : ∀ n, n ∈ order ↔ (session, n) ∈ held := by
    intro n
    rw [← hexact.indexed.leaves, ← hlist, mem_toFinset]
  obtain ⟨st', held', hrun, hexact', hheld⟩ :=
    hexact.release h.wf session hnodup fun n hn => (hmem n).mp hn
  obtain ⟨w₁, hw₁, -, hcomp, -⟩ := h.onComponent hrun hexact'
  rw [SessionWorld.step, hw₁] at run
  cases run
  rw [hcomp, update_self]
  ext n
  rw [hexact'.indexed.leaves, hheld]
  split_ifs with hs
  · subst hs
    simp [hmem]
  · rw [← hexact.indexed.leaves]
    simp [hs]

/-- In every run of registrations, releases, splits, new nodes and deletions no
assertion of the session code fails, `validate_session_state` reports nothing,
each `session_ref` is the number the component's coverage discipline says, and
once every session is released all of them are zero. -/
theorem session_references_exact (h : w.Reach cfg) :
    (∀ op, w.Legal cfg op → ∃ w', w.step cfg op = .ok w') ∧ (∀ ct ∈ cfg.components,
      (w.component ct).validateSessionState ct w.tree.arena = ∅ ∧
      (∀ session order w', w.Legal cfg (.release ct session order) →
        w.step cfg (.release ct session order) = .ok w' → ∀ s, (w'.component ct).leavesOf s =
          if s = session then ∅ else (w.component ct).leavesOf s) ∧
      ((∀ s, (w.component ct).leavesOf s = ∅) → ∀ n, (w.component ct).sessionRef n = 0)) ∧
    (.full ∈ cfg.components → ∀ n, (w.component .full).sessionRef n =
      ((w.component .full).frontier.filter fun q => n ∈ w.tree.climb q.2).card) ∧
    (.mamba ∈ cfg.components → ∀ n, (w.component .mamba).sessionRef n =
      ((w.component .mamba).sessionLeaves.keys.toFinset.filter fun s =>
        n ∈ (w.component .mamba).leavesOf s).card) ∧
    (.swa ∈ cfg.components → ∀ n, (w.component .swa).sessionRef n =
      ((w.component .swa).recorded.filter fun q => n ∈ spanned w.tree.keyLen
        (((w.component .swa).coveredLen q).getD 0) 0 (w.tree.climb q.2)).card) := by
  have hinv := h.inv
  refine ⟨?_, ?_, ?_, ?_, ?_⟩
  · intro op legal
    obtain ⟨w', hw', -⟩ := hinv.step legal
    exact ⟨w', hw'⟩
  · intro ct hct
    obtain ⟨held, hexact⟩ := hinv.exact ct hct
    exact ⟨hexact.validate hinv.wf, fun _ _ _ legal run => hinv.release_leaves legal run,
      hexact.ref_zero⟩
  · intro hct
    obtain ⟨held, hexact⟩ := hinv.exact .full hct
    exact hexact.ref_full
  · intro hct
    obtain ⟨held, hexact⟩ := hinv.exact .mamba hct
    exact hexact.ref_mamba
  · intro hct
    obtain ⟨held, hexact⟩ := hinv.exact .swa hct
    exact hexact.ref_swa

/-! A tree of one node of four tokens, held by two sessions in every component and
split in the middle. -/

def tracked : SessionConfig where
  enableSessionRadixCache := true
  components := [.full, .swa, .mamba]
  components_nodup := fullSwaMamba_nodup
  slidingWindowSize := 1
  pageSize := 1
  page_pos := by decide

theorem tracked_reach : ∃ w : SessionWorld Nat, w.Reach tracked ∧
    (w.component .full).sessionRef 2 = 2 ∧ (w.component .swa).sessionRef 2 = 1 := by
  have h₀ : Reach tracked (init 0 : SessionWorld Nat) := .init 0
  have h₁ := @Reach.step Nat _ tracked _ _ (.addNode 0 4) h₀ ⟨by decide, by decide⟩ rfl
  have h₂ := @Reach.step Nat _ tracked _ _ (.register .full 7 (some 1)) h₁
    ⟨by decide, by simp [init, addNode, fresh]⟩ rfl
  have h₃ := @Reach.step Nat _ tracked _ _ (.register .full 8 (some 1)) h₂
    ⟨by decide, by simp [init, addNode, fresh]⟩ rfl
  have h₄ := @Reach.step Nat _ tracked _ _ (.register .swa 7 (some 1)) h₃
    ⟨by decide, by simp [init, addNode, fresh]⟩ rfl
  have h₅ := @Reach.step Nat _ tracked _ _ (.register .mamba 7 (some 1)) h₄
    ⟨by decide, by simp [init, addNode, fresh]⟩ rfl
  have h₆ := @Reach.step Nat _ tracked _ _ (.split 1 2) h₅
    ⟨by decide, by decide, by decide, by decide⟩ rfl
  exact ⟨_, h₆, by decide, by decide⟩

theorem session_references_exact_tracked : ∃ w : SessionWorld Nat,
    (w.component .full).sessionRef 2 = 2 ∧ (w.component .swa).sessionRef 2 = 1 ∧
    (∀ ct ∈ tracked.components, (w.component ct).validateSessionState ct w.tree.arena = ∅) ∧
    (w.component .full).sessionRef 2 =
      ((w.component .full).frontier.filter fun q => 2 ∈ w.tree.climb q.2).card := by
  obtain ⟨w, hw, hfull, hswa⟩ := tracked_reach
  have hexact := session_references_exact hw
  exact ⟨w, hfull, hswa, fun ct hct => (hexact.2.1 ct hct).1, hexact.2.2.1 (by decide) 2⟩

end SessionWorld

end SparkInfer.Unified
