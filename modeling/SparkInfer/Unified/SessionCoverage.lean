import SparkInfer.Lib.Coverage
import SparkInfer.Unified.Session
import Mathlib.Algebra.Ring.Nat
import Mathlib.Data.Finset.Prod
import Mathlib.Data.List.TakeWhile

/-!
# What the frontiers of a component protect

Every (session, frontier node) pair has a coverage; the counts of a component
are exact when each `session_ref` is the number of pairs whose coverage contains
the node.  The three coverage disciplines only differ in what a coverage is: they
all add the coverage of a new pair and take that of an old one, without failing.
-/

namespace SparkInfer.Unified

open Lib List AList Finset

variable {S : Type}
variable {st st' : SessionState S} {t : Tree} {ct : ComponentType} {held : Finset (S × NodeId)}
variable {q : S × NodeId} {session : S} {leaf ancestor : NodeId} {ns : List NodeId} {cfg : SessionConfig}
variable {xs ys : List NodeId} {len span : Nat} {n : NodeId} {delta : Int} {keyLen : NodeId → Nat}

/-- The nodes a walk over `span` tokens visits, `covered` tokens being behind it. -/
def spanned (keyLen : NodeId → Nat) (span : Nat) : Nat → List NodeId → List NodeId
  | _, [] => []
  | covered, node :: rest =>
    if covered < span then node :: spanned keyLen span (covered + keyLen node) rest else []

def tokens (keyLen : NodeId → Nat) (ns : List NodeId) : Nat := (ns.map keyLen).sum

/-- `len` tokens above `leaf`, its own included, end at a node boundary. -/
def Spans (t : Tree) (leaf : NodeId) (len : Nat) : Prop :=
  ∃ xs ys, t.climb leaf = xs ++ ys ∧ xs ≠ [] ∧ tokens t.keyLen xs = len

section Spanned

theorem spanned_initial (keyLen : NodeId → Nat) (span covered : Nat) (ns : List NodeId) :
    ∃ ys, ns = spanned keyLen span covered ns ++ ys := by
  induction ns generalizing covered with
  | nil => exact ⟨[], rfl⟩
  | cons n ns ih =>
    rw [spanned]
    split_ifs
    · obtain ⟨ys, hys⟩ := ih (covered + keyLen n)
      exact ⟨ys, by rw [cons_append, ← hys]⟩
    · exact ⟨n :: ns, rfl⟩

theorem spanned_exact (hpos : ∀ x ∈ xs, 0 < keyLen x) (covered : Nat)
    (hsum : covered + tokens keyLen xs = span) : spanned keyLen span covered (xs ++ ys) = xs := by
  induction xs generalizing covered with
  | nil =>
    rw [tokens] at hsum
    simp only [map_nil, sum_nil] at hsum
    cases ys with
    | nil => rfl
    | cons y ys => rw [nil_append, spanned, if_neg (by omega)]
  | cons x xs ih =>
    have hx := hpos x (by simp)
    have htok : tokens keyLen (x :: xs) = keyLen x + tokens keyLen xs := by simp [tokens]
    rw [cons_append, spanned, if_pos (by omega),
      ih (fun y hy => hpos y (by simp [hy])) (covered + keyLen x) (by omega)]

theorem Spans.spanned_eq (h : t.WF) (hleaf : leaf ∈ t.arena) (hclimb : t.climb leaf = xs ++ ys)
    (hlen : tokens t.keyLen xs = len) : spanned t.keyLen len 0 (t.climb leaf) = xs := by
  rw [hclimb]
  refine spanned_exact ?_ 0 (by omega)
  intro x hx
  obtain ⟨hmem, hne⟩ := h.mem_climb hleaf (by rw [hclimb]; simp [hx] : x ∈ t.climb leaf)
  exact h.keyLen_pos x hmem hne

end Spanned

/-! ## Walks -/

namespace SessionState

/-- `delta` more on the nodes of `ns`. -/
def bump (st : SessionState S) (ns : List NodeId) (delta : Int) : SessionState S :=
  { st with sessionRef := fun n => st.sessionRef n + if n ∈ ns then delta else 0 }

theorem bump_nil (st : SessionState S) (delta : Int) : st.bump [] delta = st := by
  simp [bump]

theorem addRef_eq_bump : st.addRef n delta = st.bump [n] delta := by
  unfold addRef
  congr 1
  funext x
  by_cases hx : x = n
  · subst hx
    simp
  · simp [hx]

theorem bump_bump_cons (st : SessionState S) (delta : Int) (hn : n ∉ ns) :
    (st.bump [n] delta).bump ns delta = st.bump (n :: ns) delta := by
  unfold bump
  congr 1
  funext x
  by_cases hx : x = n
  · subst hx
    simp [hn]
  · simp [hx]

theorem incWalk_eq (st : SessionState S) (hns : ns.Nodup) : st.incWalk ns = st.bump ns 1 := by
  induction ns generalizing st with
  | nil => rw [bump_nil, incWalk]
  | cons n ns ih =>
    obtain ⟨hn, hns⟩ := nodup_cons.mp hns
    rw [incWalk, addRef_eq_bump, ih _ hns, bump_bump_cons st 1 hn]

theorem bump_pos (hn : n ∉ ns) (hpos : ∀ x ∈ ns, 0 < st.sessionRef x) :
    ∀ x ∈ ns, 0 < (st.bump [n] delta).sessionRef x := by
  intro x hx
  have hxn : x ≠ n := fun h => hn (h ▸ hx)
  simpa [bump, hxn] using hpos x hx

theorem decWalk_eq (st : SessionState S) (hns : ns.Nodup) (hpos : ∀ n ∈ ns, 0 < st.sessionRef n) :
    st.decWalk ns = .ok (st.bump ns (-1)) := by
  induction ns generalizing st with
  | nil => rw [bump_nil, decWalk]
  | cons n ns ih =>
    obtain ⟨hn, hns⟩ := nodup_cons.mp hns
    rw [decWalk, if_pos (hpos n (by simp)), addRef_eq_bump,
      ih _ hns (bump_pos hn fun x hx => hpos x (by simp [hx])), bump_bump_cons st (-1) hn]

theorem walkSessionCoverage_eq (st : SessionState S) (hns : ns.Nodup) (covered : Nat)
    (hpos : delta < 0 → ∀ n ∈ spanned keyLen span covered ns, 0 < st.sessionRef n) :
    walkSessionCoverage keyLen span delta st covered ns =
      .ok (covered + tokens keyLen (spanned keyLen span covered ns),
        st.bump (spanned keyLen span covered ns) delta) := by
  induction ns generalizing st covered with
  | nil => simp [walkSessionCoverage, spanned, tokens, bump_nil]
  | cons n ns ih =>
    obtain ⟨hn, hns⟩ := nodup_cons.mp hns
    rw [walkSessionCoverage, spanned]
    rw [spanned] at hpos
    by_cases hcov : covered < span
    · rw [if_pos hcov] at hpos
      rw [if_pos hcov, if_pos hcov]
      have hnot : n ∉ spanned keyLen span (covered + keyLen n) ns := by
        obtain ⟨ys, hys⟩ := spanned_initial keyLen span (covered + keyLen n) ns
        intro hmem
        apply hn
        rw [hys]
        exact mem_append_left ys hmem
      have hguard : ¬ (delta < 0 ∧ ¬ 0 < st.sessionRef n) := by
        rintro ⟨hneg, hzero⟩
        exact hzero (hpos hneg n (by simp))
      rw [if_neg hguard, addRef_eq_bump, ih _ hns (covered + keyLen n), bump_bump_cons _ _ hnot]
      · congr 2
        simp [tokens, add_assoc]
      · intro hneg
        exact bump_pos hnot fun x hx => hpos hneg x (by simp [hx])
    · rw [if_neg hcov, if_neg hcov, bump_nil]
      rfl

theorem bump_sessionRef :
    (st.bump ns delta).sessionRef n = st.sessionRef n + if n ∈ ns then delta else 0 := rfl

theorem bump_neg_sessionRef :
    (st.bump ns (-1)).sessionRef n = st.sessionRef n - if n ∈ ns then 1 else 0 := by
  rw [bump_sessionRef]
  split_ifs
  · rfl
  · simp

theorem bump_append (st : SessionState S) (hnodup : (xs ++ ys).Nodup) (delta : Int) :
    (st.bump (xs ++ ys) delta).bump ys (-delta) = st.bump xs delta := by
  have hdisj := (nodup_append.mp hnodup).2.2
  unfold bump
  congr 1
  funext n
  have hn : n ∈ xs → n ∉ ys := fun hx hy => hdisj n hx n hy rfl
  by_cases hx : n ∈ xs
  · simp [hn hx]
  · by_cases hy : n ∈ ys
    · simp [hx, hy]
    · simp [hy]

/-- Only `session_ref` and the recorded lengths may differ. -/
def SameIndex (st st' : SessionState S) : Prop :=
  st'.sessionLeaves = st.sessionLeaves ∧ st'.sessionIds = st.sessionIds

theorem SameIndex.trans {st'' : SessionState S} (h : SameIndex st st') (h' : SameIndex st' st'') :
    SameIndex st st'' :=
  ⟨h'.1.trans h.1, h'.2.trans h.2⟩

/-! ## Coverages come and go -/

variable [DecidableEq S]

/-- The nodes a session's frontier node protects. -/
def coverage (t : Tree) (ct : ComponentType) (st : SessionState S) (q : S × NodeId) :
    Finset NodeId :=
  match ct with
  | .full => (t.climb q.2).toFinset
  | .swa => (spanned t.keyLen ((st.coveredLen q).getD 0) 0 (t.climb q.2)).toFinset
  | .mamba => {q.2}

/-- The counts are those of the coverages of the pairs `held`. -/
structure Covered (t : Tree) (ct : ComponentType) (st : SessionState S)
    (held : Finset (S × NodeId)) : Prop where
  mem : ∀ q ∈ held, q.2 ∈ t.arena ∧ q.2 ≠ t.rootNode
  counts : Counts st.sessionRef held (st.coverage t ct)
  recorded : ct = .swa → ∀ q, (∃ len, st.coveredLen q = some len) ↔ q ∈ held
  spans : ct = .swa → ∀ q len, st.coveredLen q = some len → Spans t q.2 len

theorem coverage_congr (h : ct = .swa → st'.coveredLen q = st.coveredLen q) :
    st'.coverage t ct q = st.coverage t ct q := by
  cases ct with
  | full | mamba => rfl
  | swa => simp only [coverage, h rfl]

theorem Covered.add (h : st.Covered t ct held) (hq : q ∉ held) (hmem : q.2 ∈ t.arena)
    (hroot : q.2 ≠ t.rootNode)
    (href : ∀ n, st'.sessionRef n = st.sessionRef n + if n ∈ st'.coverage t ct q then 1 else 0)
    (hother : ∀ q', q' ≠ q → st'.coveredLen q' = st.coveredLen q')
    (hself : ct = .swa → ∃ len, st'.coveredLen q = some len ∧ Spans t q.2 len) :
    st'.Covered t ct (insert q held) := by
  refine ⟨?_, ?_, ?_, ?_⟩
  · intro q' hq'
    rcases mem_insert.mp hq' with rfl | hq'
    · exact ⟨hmem, hroot⟩
    · exact h.mem q' hq'
  · have hsame : ∀ q' ∈ held, st.coverage t ct q' = st'.coverage t ct q' := by
      intro q' hq'
      refine (coverage_congr fun _ => hother q' ?_).symm
      rintro rfl
      exact hq hq'
    exact (h.counts.congr hsame).insert hq href
  · intro hswa q'
    obtain ⟨len, hlen, -⟩ := hself hswa
    rw [Finset.mem_insert]
    by_cases hqq : q' = q
    · subst hqq
      exact ⟨fun _ => .inl rfl, fun _ => ⟨len, hlen⟩⟩
    · rw [hother q' hqq, h.recorded hswa q']
      simp [hqq]
  · intro hswa q' len' hlen'
    by_cases hqq : q' = q
    · subst hqq
      obtain ⟨len, hlen, hspan⟩ := hself hswa
      rw [hlen] at hlen'
      cases hlen'
      exact hspan
    · rw [hother q' hqq] at hlen'
      exact h.spans hswa q' len' hlen'

theorem Covered.drop (h : st.Covered t ct held) (hq : q ∈ held)
    (href : ∀ n, st'.sessionRef n = st.sessionRef n - if n ∈ st.coverage t ct q then 1 else 0)
    (hother : ∀ q', q' ≠ q → st'.coveredLen q' = st.coveredLen q')
    (hself : ct = .swa → st'.coveredLen q = none) : st'.Covered t ct (held.erase q) := by
  refine ⟨?_, ?_, ?_, ?_⟩
  · exact fun q' hq' => h.mem q' (mem_of_mem_erase hq')
  · refine (h.counts.erase hq href).congr ?_
    intro q' hq'
    exact (coverage_congr fun _ => hother q' (ne_of_mem_erase hq')).symm
  · intro hswa q'
    by_cases hqq : q' = q
    · subst hqq
      simp [hself hswa]
    · rw [hother q' hqq, h.recorded hswa q']
      simp [hqq]
  · intro hswa q' len' hlen'
    by_cases hqq : q' = q
    · subst hqq
      rw [hself hswa] at hlen'
      cases hlen'
    · rw [hother q' hqq] at hlen'
      exact h.spans hswa q' len' hlen'

theorem coverage_full : st.coverage t .full q = (t.climb q.2).toFinset := rfl

theorem coverage_mamba : st.coverage t .mamba q = {q.2} := rfl

theorem coverage_swa (h : st.coveredLen q = some len) :
    st.coverage t .swa q = (spanned t.keyLen len 0 (t.climb q.2)).toFinset := by
  simp only [coverage, h, Option.getD_some]

/-! ### The window of `SWA` -/

/-- The coverage of `leaf` was found to be `len` tokens. -/
def record (st : SessionState S) (session : S) (leaf : NodeId) (len : Nat) : SessionState S :=
  { st with
    sessionLeafCoveredLen := st.sessionLeafCoveredLen.insert session
      (((st.sessionLeafCoveredLen.lookup session).getD ∅).insert leaf len) }

/-- The record of `leaf` was popped from the session's records `byLeaf`. -/
def unrecord (st : SessionState S) (session : S) (leaf : NodeId)
    (byLeaf : AList fun _ : NodeId => Nat) : SessionState S :=
  { st with
    sessionLeafCoveredLen :=
      if (byLeaf.erase leaf).keys = [] then st.sessionLeafCoveredLen.erase session
      else st.sessionLeafCoveredLen.insert session (byLeaf.erase leaf) }

theorem coveredLen_record (st : SessionState S) (session : S) (leaf : NodeId) (len : Nat)
    (q : S × NodeId) : (st.record session leaf len).coveredLen q =
      if q = (session, leaf) then some len else st.coveredLen q := by
  obtain ⟨s, n⟩ := q
  unfold coveredLen record
  by_cases hs : s = session
  · subst hs
    rw [lookup_insert, Option.bind_some]
    by_cases hn : n = leaf
    · subst hn
      rw [lookup_insert, if_pos rfl]
    have hne : (s, n) ≠ (s, leaf) := fun h => hn (Prod.ext_iff.mp h).2
    rw [lookup_insert_ne hn, if_neg hne]
    cases st.sessionLeafCoveredLen.lookup s with
    | none | some byLeaf => rfl
  · have hne : (s, n) ≠ (session, leaf) := fun h => hs (Prod.ext_iff.mp h).1
    rw [lookup_insert_ne hs, if_neg hne]

theorem coveredLen_unrecord (st : SessionState S) (session : S) (leaf : NodeId)
    {byLeaf : AList fun _ : NodeId => Nat}
    (hby : st.sessionLeafCoveredLen.lookup session = some byLeaf) (q : S × NodeId) :
    (st.unrecord session leaf byLeaf).coveredLen q =
      if q = (session, leaf) then none else st.coveredLen q := by
  obtain ⟨s, n⟩ := q
  unfold coveredLen unrecord
  by_cases hs : s = session
  · subst hs
    rw [hby, Option.bind_some]
    have hself : (byLeaf.erase leaf).lookup n =
        if (s, n) = (s, leaf) then none else byLeaf.lookup n := by
      by_cases hn : n = leaf
      · subst hn
        rw [lookup_erase, if_pos rfl]
      · have hne : (s, n) ≠ (s, leaf) := fun h => hn (Prod.ext_iff.mp h).2
        rw [lookup_erase_ne hn, if_neg hne]
    rw [← hself]
    split_ifs with hempty
    · -- the session's last record is gone
      rw [lookup_erase, Option.bind_none]
      symm
      rw [lookup_eq_none, AList.mem_keys, hempty]
      simp
    · rw [lookup_insert, Option.bind_some]
  · have hne : (s, n) ≠ (session, leaf) := fun h => hs (Prod.ext_iff.mp h).1
    split_ifs
    · rw [lookup_erase_ne hs]
    · rw [lookup_insert_ne hs]

theorem Covered.incWindow (h : st.Covered t .swa held) (cfg : SessionConfig) (hwf : t.WF)
    (hq : (session, leaf) ∉ held) (hmem : leaf ∈ t.arena) (hroot : leaf ≠ t.rootNode) :
    ∃ st', st.incWindow cfg t session leaf = .ok st' ∧ SameIndex st st' ∧
      st'.Covered t .swa (insert (session, leaf) held) := by
  have hnot : leaf ∉ (st.sessionLeafCoveredLen.lookup session).getD ∅ := by
    intro hin
    apply hq
    apply (h.recorded rfl (session, leaf)).mp
    unfold coveredLen
    cases hby : st.sessionLeafCoveredLen.lookup session with
    | none =>
      rw [hby] at hin
      simp at hin
    | some byLeaf =>
      rw [hby] at hin
      exact Option.isSome_iff_exists.mp (lookup_isSome.mpr hin)
  obtain ⟨xs, hxs⟩ : ∃ xs, xs = spanned t.keyLen (cfg.slidingWindowSize + cfg.pageSize) 0
      (t.climb leaf) := ⟨_, rfl⟩
  have hwalk : walkSessionCoverage t.keyLen (cfg.slidingWindowSize + cfg.pageSize) 1 st 0
      (t.climb leaf) = .ok (0 + tokens t.keyLen xs, st.bump xs 1) := by
    rw [hxs]
    exact walkSessionCoverage_eq st (hwf.climb_nodup hmem) 0 (by omega)
  obtain ⟨ys, hys⟩ : ∃ ys, t.climb leaf = xs ++ ys := by
    rw [hxs]
    exact spanned_initial _ _ _ _
  have hhead : ∃ rest, xs = leaf :: rest := by
    obtain ⟨p, hp, hpar⟩ := hwf.parent_mem hmem hroot
    have hpage := cfg.page_pos
    rw [hxs, hwf.climb_cons hmem hroot hpar, spanned, if_pos (by omega)]
    exact ⟨_, rfl⟩
  obtain ⟨rest, hrest⟩ := hhead
  rw [zero_add] at hwalk
  have hpos : tokens t.keyLen xs ≠ 0 := by
    have hlen := hwf.keyLen_pos leaf hmem hroot
    rw [hrest, tokens]
    simp only [List.map_cons, List.sum_cons]
    omega
  have hlen := coveredLen_record (st.bump xs 1) session leaf (tokens t.keyLen xs)
  refine ⟨(st.bump xs 1).record session leaf (tokens t.keyLen xs), ?_, ⟨rfl, rfl⟩,
    h.add hq hmem hroot ?_ ?_ ?_⟩
  · unfold SessionState.incWindow
    rw [if_neg hnot, hwalk]
    exact if_neg hpos
  · intro n
    rw [coverage_swa ((hlen (session, leaf)).trans (if_pos rfl)), Spans.spanned_eq hwf hmem hys rfl]
    simp only [mem_toFinset]
    rfl
  · exact fun q' hq' => (hlen q').trans (if_neg hq')
  · intro _
    refine ⟨_, (hlen (session, leaf)).trans (if_pos rfl), xs, ys, hys, ?_, rfl⟩
    rw [hrest]
    simp

theorem Covered.decWindow (h : st.Covered t .swa held) (hwf : t.WF) (hq : (session, leaf) ∈ held) :
    ∃ st', st.decWindow t session leaf = .ok st' ∧ SameIndex st st' ∧
      st'.Covered t .swa (held.erase (session, leaf)) := by
  obtain ⟨hmem, hroot⟩ := h.mem _ hq
  obtain ⟨len, hlen⟩ := (h.recorded rfl (session, leaf)).mpr hq
  obtain ⟨byLeaf, hby, hlook⟩ := Option.bind_eq_some_iff.mp hlen
  obtain ⟨xs, ys, hclimb, -, htok⟩ := h.spans rfl _ _ hlen
  have hxs := Spans.spanned_eq hwf hmem hclimb htok
  have hcov : st.coverage t .swa (session, leaf) = xs.toFinset := by
    rw [coverage_swa hlen, hxs]
  have hwalk : walkSessionCoverage t.keyLen len (-1) (st.unrecord session leaf byLeaf) 0
      (t.climb leaf) = .ok (len, (st.unrecord session leaf byLeaf).bump xs (-1)) := by
    rw [walkSessionCoverage_eq _ (hwf.climb_nodup hmem) 0, hxs, htok, zero_add]
    intro _ n hn
    rw [hxs] at hn
    exact h.counts.pos hq (by rw [hcov]; exact mem_toFinset.mpr hn)
  have hlen' := coveredLen_unrecord st session leaf hby
  refine ⟨(st.unrecord session leaf byLeaf).bump xs (-1), ?_, ⟨rfl, rfl⟩, h.drop hq ?_ ?_ ?_⟩
  · have hlook' : byLeaf.lookup leaf = some len := hlook
    have hby' : st.sessionLeafCoveredLen.lookup session = some byLeaf := hby
    unfold SessionState.decWindow
    simp only [hby', hlook']
    change (walkSessionCoverage t.keyLen len (-1) (st.unrecord session leaf byLeaf) 0
      (t.climb leaf) >>= _) = _
    rw [hwalk]
    exact if_pos rfl
  · intro n
    rw [hcov, bump_neg_sessionRef]
    simp only [mem_toFinset]
    rfl
  · exact fun q' hq' => (hlen' q').trans (if_neg hq')
  · exact fun _ => (hlen' _).trans (if_pos rfl)

/-! ### The node of `MAMBA` -/

theorem Covered.incNode (h : st.Covered t .mamba held) (hq : (session, leaf) ∉ held)
    (hmem : leaf ∈ t.arena) (hroot : leaf ≠ t.rootNode) :
    (st.incNode leaf).Covered t .mamba (insert (session, leaf) held) := by
  rw [SessionState.incNode, addRef_eq_bump]
  refine h.add hq hmem hroot ?_ (fun _ _ => rfl) (fun hct => by cases hct)
  intro n
  rw [bump_sessionRef, coverage_mamba]
  simp

theorem Covered.decNode (h : st.Covered t .mamba held) (hq : (session, leaf) ∈ held) :
    ∃ st', st.decNode leaf = .ok st' ∧ SameIndex st st' ∧
      st'.Covered t .mamba (held.erase (session, leaf)) := by
  have hpos : 0 < st.sessionRef leaf :=
    h.counts.pos hq (by rw [coverage_mamba]; exact Finset.mem_singleton_self leaf)
  refine ⟨st.bump [leaf] (-1), ?_, ⟨rfl, rfl⟩, ?_⟩
  · rw [SessionState.decNode, if_pos hpos, addRef_eq_bump]
  refine h.drop hq ?_ (fun _ _ => rfl) (fun hct => by cases hct)
  intro n
  rw [bump_neg_sessionRef, coverage_mamba]
  simp

/-! ### The path of `FULL` -/

section

variable (h : st.Covered t .full held)
include h

theorem Covered.incPath (hq : (session, leaf) ∉ held)
    (hmem : leaf ∈ t.arena) (hroot : leaf ≠ t.rootNode) :
    (st.bump (t.climb leaf) 1).Covered t .full (insert (session, leaf) held) := by
  refine h.add hq hmem hroot ?_ (fun _ _ => rfl) (fun hct => by cases hct)
  intro n
  rw [bump_sessionRef, coverage_full]
  simp only [mem_toFinset]

theorem Covered.decPath (hq : (session, leaf) ∈ held) :
    (st.bump (t.climb leaf) (-1)).Covered t .full (held.erase (session, leaf)) := by
  refine h.drop hq ?_ (fun _ _ => rfl) (fun hct => by cases hct)
  intro n
  rw [bump_neg_sessionRef, coverage_full]
  simp only [mem_toFinset]

theorem Covered.pos_of_mem_climb (hq : (session, leaf) ∈ held)
    (hn : n ∈ t.climb leaf) : 0 < st.sessionRef n :=
  h.counts.pos hq (by rw [coverage_full]; exact mem_toFinset.mpr hn)

end

end SessionState

/-- `ancestor` is met on the climb from `leaf`, after `leaf` itself. -/
def Above (t : Tree) (leaf ancestor : NodeId) : Prop :=
  ∃ xs ys, t.climb leaf = xs ++ ancestor :: ys ∧ xs ≠ []

section

variable (h : t.WF) (hmem : leaf ∈ t.arena)
include h hmem

theorem Above.takeWhile (ha : Above t leaf ancestor) :
    t.climb leaf = ((t.climb leaf).takeWhile fun n => decide (n ≠ ancestor)) ++
      t.climb ancestor := by
  obtain ⟨xs, ys, hclimb, -⟩ := ha
  have hnodup := h.climb_nodup hmem
  rw [hclimb] at hnodup
  have hxs : ∀ n ∈ xs, n ≠ ancestor := fun n hn =>
    (nodup_append.mp hnodup).2.2 n hn ancestor (by simp)
  rw [h.climb_of_append hmem xs hclimb, hclimb, takeWhile_append_of_pos]
  · simp
  · intro n hn
    simpa using hxs n hn

theorem takeWhile_root :
    ((t.climb leaf).takeWhile fun n => decide (n ≠ t.rootNode)) = t.climb leaf := by
  rw [takeWhile_eq_self_iff]
  intro n hn
  simpa using (h.mem_climb hmem hn).2

theorem Above.mem (ha : Above t leaf ancestor) :
    ancestor ∈ t.arena ∧ ancestor ≠ t.rootNode ∧ ancestor ≠ leaf := by
  obtain ⟨xs, ys, hclimb, hxs⟩ := ha
  have hin : ancestor ∈ t.climb leaf := by
    rw [hclimb]
    simp
  obtain ⟨harena, hroot⟩ := h.mem_climb hmem hin
  refine ⟨harena, hroot, ?_⟩
  rintro rfl
  -- its own climb would be a proper part of itself
  have hself := h.climb_of_append hmem xs hclimb
  rw [hclimb] at hself
  have hlen := congrArg length hself
  rw [length_append] at hlen
  have := length_pos_of_ne_nil hxs
  omega

theorem above_of_mem_parent {p : NodeId} (hroot : leaf ≠ t.rootNode) (hpar : t.parent leaf = some p)
    (ha : ancestor ∈ t.climb p) : Above t leaf ancestor := by
  obtain ⟨xs, ys, hxy⟩ := append_of_mem ha
  refine ⟨leaf :: xs, ys, ?_, by simp⟩
  rw [h.climb_cons hmem hroot hpar, hxy]
  rfl

end

namespace SessionState

/-! ### All components -/

variable [DecidableEq S] (h : st.Covered t ct held)
include h

theorem Covered.dec (hwf : t.WF) (hq : (session, leaf) ∈ held) :
    ∃ st', st.decSessionCoverage t ct session leaf = .ok st' ∧ SameIndex st st' ∧
      st'.Covered t ct (held.erase (session, leaf)) := by
  cases ct with
  | full =>
    refine ⟨st.bump (t.climb leaf) (-1), ?_, ⟨rfl, rfl⟩, h.decPath hq⟩
    exact decWalk_eq st (hwf.climb_nodup (h.mem _ hq).1) fun n hn => h.pos_of_mem_climb hq hn
  | swa => exact h.decWindow hwf hq
  | mamba => exact h.decNode hq

/-- The frontier pairs once the coverage moved to `(session, leaf)`. -/
def advanced (held : Finset (S × NodeId)) (session : S) (leaf : NodeId) :
    Option NodeId → Finset (S × NodeId)
  | some ancestor => (insert (session, leaf) held).erase (session, ancestor)
  | none => insert (session, leaf) held

theorem Covered.advance (cfg : SessionConfig) (hwf : t.WF) (hq : (session, leaf) ∉ held)
    (hmem : leaf ∈ t.arena) (hroot : leaf ≠ t.rootNode) {old : Option NodeId}
    (hold : ∀ a ∈ old, (session, a) ∈ held ∧ Above t leaf a) :
    ∃ st', st.advanceSessionCoverage cfg t ct session leaf old = .ok st' ∧ SameIndex st st' ∧
      st'.Covered t ct (advanced held session leaf old) := by
  cases ct with
  | full =>
    have hadd := h.incPath hq hmem hroot
    have hnodup := hwf.climb_nodup hmem
    refine ⟨_, rfl, ?_⟩
    rw [incWalk_eq _ (hnodup.sublist (takeWhile_sublist _))]
    refine ⟨⟨rfl, rfl⟩, ?_⟩
    cases old with
    | none =>
      rwa [Option.getD_none, takeWhile_root hwf hmem]
    | some a =>
      obtain ⟨ha, habove⟩ := hold a rfl
      have hsplit := habove.takeWhile hwf hmem
      rw [hsplit] at hnodup hadd
      have hdrop := hadd.decPath (mem_insert_of_mem ha)
      rwa [bump_append st hnodup 1] at hdrop
  | swa =>
    obtain ⟨st₁, hrun₁, hsame₁, hcov₁⟩ := h.incWindow cfg hwf hq hmem hroot
    cases old with
    | none =>
      refine ⟨st₁, ?_, hsame₁, hcov₁⟩
      simp only [advanceSessionCoverage, hrun₁]
      rfl
    | some a =>
      obtain ⟨ha, -⟩ := hold a rfl
      obtain ⟨st₂, hrun₂, hsame₂, hcov₂⟩ := hcov₁.decWindow hwf (mem_insert_of_mem ha)
      refine ⟨st₂, ?_, hsame₁.trans hsame₂, hcov₂⟩
      simp only [advanceSessionCoverage, hrun₁]
      exact hrun₂
  | mamba =>
    have hcov₁ := h.incNode hq hmem hroot
    cases old with
    | none => exact ⟨_, rfl, ⟨rfl, rfl⟩, hcov₁⟩
    | some a =>
      obtain ⟨ha, -⟩ := hold a rfl
      obtain ⟨st₂, hrun₂, hsame₂, hcov₂⟩ := hcov₁.decNode (mem_insert_of_mem ha)
      exact ⟨st₂, hrun₂, hsame₂, hcov₂⟩

/-- The frontier pairs once `(session, leaf)` fell back. -/
def receded (held : Finset (S × NodeId)) (session : S) (leaf : NodeId) :
    Option NodeId → Finset (S × NodeId)
  | some ancestor => insert (session, ancestor) (held.erase (session, leaf))
  | none => held.erase (session, leaf)

theorem Covered.recede (cfg : SessionConfig) (hwf : t.WF) (hq : (session, leaf) ∈ held)
    {fallback : Option NodeId} (hback : ∀ a ∈ fallback, (session, a) ∉ held ∧ Above t leaf a) :
    ∃ st', st.recedeSessionCoverage cfg t ct session leaf fallback = .ok st' ∧ SameIndex st st' ∧
      st'.Covered t ct (receded held session leaf fallback) := by
  obtain ⟨hmem, -⟩ := h.mem _ hq
  have hfresh : ∀ a ∈ fallback, (session, a) ∉ held.erase (session, leaf) := fun a ha hin =>
    (hback a ha).1 (mem_of_mem_erase hin)
  cases ct with
  | full =>
    have hdrop := h.decPath hq
    have hnodup := hwf.climb_nodup hmem
    refine ⟨_, decWalk_eq st (hnodup.sublist (takeWhile_sublist _)) ?_, ⟨rfl, rfl⟩, ?_⟩
    · exact fun n hn => h.pos_of_mem_climb hq ((takeWhile_sublist _).subset hn)
    cases fallback with
    | none =>
      rwa [Option.getD_none, takeWhile_root hwf hmem]
    | some a =>
      obtain ⟨harena, haroot, -⟩ := (hback a rfl).2.mem hwf hmem
      have hsplit := (hback a rfl).2.takeWhile hwf hmem
      rw [hsplit] at hnodup hdrop
      have hadd := hdrop.incPath (hfresh a rfl) harena haroot
      have hmove := bump_append st hnodup (-1)
      rw [neg_neg] at hmove
      rwa [hmove] at hadd
  | swa =>
    obtain ⟨st₁, hrun₁, hsame₁, hcov₁⟩ := h.decWindow hwf hq
    cases fallback with
    | none =>
      refine ⟨st₁, ?_, hsame₁, hcov₁⟩
      simp only [recedeSessionCoverage, hrun₁]
      rfl
    | some a =>
      obtain ⟨harena, haroot, -⟩ := (hback a rfl).2.mem hwf hmem
      obtain ⟨st₂, hrun₂, hsame₂, hcov₂⟩ := hcov₁.incWindow cfg hwf (hfresh a rfl) harena haroot
      refine ⟨st₂, ?_, hsame₁.trans hsame₂, hcov₂⟩
      simp only [recedeSessionCoverage, hrun₁]
      exact hrun₂
  | mamba =>
    obtain ⟨st₁, hrun₁, hsame₁, hcov₁⟩ := h.decNode hq
    cases fallback with
    | none =>
      refine ⟨st₁, ?_, hsame₁, hcov₁⟩
      simp only [recedeSessionCoverage, hrun₁]
      rfl
    | some a =>
      obtain ⟨harena, haroot, -⟩ := (hback a rfl).2.mem hwf hmem
      refine ⟨st₁.incNode a, ?_, hsame₁.trans ⟨rfl, rfl⟩,
        hcov₁.incNode (hfresh a rfl) harena haroot⟩
      simp only [recedeSessionCoverage, hrun₁]
      rfl

end SessionState

end SparkInfer.Unified
