import SparkInfer.Radix.Walk

/-!
# Page hashes of the tree

With events enabled every node of the tree carries the hashes of its pages,
chained along its path (from the seed of its `cache_salt` for the published
ones).  Splits cut these lists where they cut the keys, so the memoised hashes
stay the ones a fresh computation would give.
-/

namespace SparkInfer.Radix

open Lib List Recorder Chain Skeleton RadixKey HashFns

variable {H B : Type} {hf : HashFns H B}
variable {m n : NodeId} {us : List PyVal}
variable {lp l : List (Atom × Int)} {p : NodeId} {ck : PyVal} {t : Tree}

def unitsOf (l : List (Atom × Int)) : List PyVal := l.map fun a => a.1.2

@[simp] theorem unitsOf_append (l l' : List (Atom × Int)) :
    unitsOf (l ++ l') = unitsOf l ++ unitsOf l' := by
  simp [unitsOf]

@[simp] theorem length_unitsOf : (unitsOf l).length = l.length := by
  simp [unitsOf]

/-- Where the chain of published hashes of a namespace starts. -/
def HashFns.seed (hf : HashFns H B) (salt : Option String) : Option H := salt.map hf.salt

/-- The hashes of `us` on a path that has spelled `lp` before. -/
def HashFns.pagesAfter (hf : HashFns H B) (pageSize : Nat) (salt : Option String)
    (lp : List (Atom × Int)) (us : List PyVal) : List H :=
  chain hf.page pageSize (tip hf.page pageSize (hf.seed salt) (unitsOf lp)) us

structure Hashed (hf : HashFns H B) (pageSize : Nat) (s : Skeleton) (nodes : Finset NodeId)
    (r : Recorder H B) : Prop where
  root_plain : r.hashValue s.rootNode = some []
  root_event : r.eventHashValue s.rootNode = none
  plain : ∀ n ∈ nodes, n ≠ s.rootNode → ∀ p lp, s.parent n = some p → (s.trie nodes).Path p lp →
    r.hashValue n = some (hf.pagesAfter pageSize none lp (s.key n).units)
  event : ∀ n ∈ nodes, n ≠ s.rootNode → ∀ p lp, s.parent n = some p →
    (s.trie nodes).Path p lp → (s.key n).cacheSalt ≠ none →
    r.eventHashValue n = some (hf.pagesAfter pageSize (s.key n).cacheSalt lp (s.key n).units)

/-- The table holds the hashes of every node whose key satisfies `P`. -/
def Records (hf : HashFns H B) (pageSize : Nat) (s : Skeleton) (nodes : Finset NodeId)
    (salt : RadixKey → Option String) (P : RadixKey → Prop) (table : NodeId → Option (List H)) :
    Prop :=
  ∀ n ∈ nodes, n ≠ s.rootNode → ∀ p lp, s.parent n = some p → (s.trie nodes).Path p lp →
    P (s.key n) → table n = some (hf.pagesAfter pageSize (salt (s.key n)) lp (s.key n).units)

section

variable {pageSize : Nat} {s : Skeleton} {nodes : Finset NodeId} {r : Recorder H B}
variable {table table' : NodeId → Option (List H)} {salt : RadixKey → Option String}
variable {P : RadixKey → Prop}

theorem Hashed.of_records (hroot : r.hashValue s.rootNode = some [])
    (hroot' : r.eventHashValue s.rootNode = none)
    (hplain : Records hf pageSize s nodes (fun _ => none) (fun _ => True) r.hashValue)
    (hevent : Records hf pageSize s nodes cacheSalt (fun k => k.cacheSalt ≠ none)
      r.eventHashValue) : Hashed hf pageSize s nodes r :=
  ⟨hroot, hroot', fun n hn hne p lp hpar hlp => hplain n hn hne p lp hpar hlp trivial, hevent⟩

theorem Hashed.records (hr : Hashed hf pageSize s nodes r) :
    Records hf pageSize s nodes (fun _ => none) (fun _ => True) r.hashValue :=
  fun n hn hne p lp hpar hlp _ => hr.plain n hn hne p lp hpar hlp

theorem Hashed.published (hr : Hashed hf pageSize s nodes r) :
    Records hf pageSize s nodes cacheSalt (fun k => k.cacheSalt ≠ none) r.eventHashValue := hr.event

theorem Shape.unitsOf_label (h : Shape pageSize s nodes) (hn : n ∈ nodes) :
    unitsOf (s.label n) = (s.key n).units := by
  have hkeys := congrArg (List.map Prod.snd) (h.keys_label hn)
  simpa [unitsOf, tagged, Function.comp_def] using hkeys

theorem Shape.units_ne_nil (h : Shape pageSize s nodes) (hn : n ∈ nodes)
    (hne : n ≠ s.rootNode) : (s.key n).units ≠ [] :=
  ne_nil_of_length_pos (by rw [length_units]; exact h.len_pos hn hne)

theorem pagesAfter_append {salt : Option String} (hps : 0 < pageSize) (hlp : pageSize ∣ lp.length) :
    hf.pagesAfter pageSize salt (lp ++ l) us = chain hf.page pageSize (tip hf.page pageSize
          (tip hf.page pageSize (hf.seed salt) (unitsOf lp)) (unitsOf l)) us := by
  rw [pagesAfter, unitsOf_append, tip_append hps (by simpa using hlp)]

theorem pagesAfter_getLast? {salt : Option String} (hps : 0 < pageSize) (hlp : pageSize ∣ lp.length)
    (hl : unitsOf l = us) (hus : us ≠ []) : (hf.pagesAfter pageSize salt lp us).getLast? =
      tip hf.page pageSize (hf.seed salt) (unitsOf (lp ++ l)) := by
  rw [pagesAfter, getLast?_chain hps hus, unitsOf_append, hl, tip_append hps (by simpa using hlp)]

theorem splitNodeHashValue_eq {salt : Option String} {k : Nat} (hps : 0 < pageSize)
    (hk : pageSize ∣ k) (hle : k ≤ us.length) :
    splitNodeHashValue (some (hf.pagesAfter pageSize salt lp us)) k pageSize =
      (some (hf.pagesAfter pageSize salt lp (us.take k)), some (chain hf.page pageSize
          (tip hf.page pageSize
            (tip hf.page pageSize (hf.seed salt) (unitsOf lp)) (us.take k)) (us.drop k))) := by
  have hpages : (if pageSize = 1 then k else k / pageSize) = k / pageSize := by
    split_ifs with h1
    · rw [h1, Nat.div_one]
    · rfl
  simp only [splitNodeHashValue, hpages, pagesAfter]
  rw [take_chain hps hk hle, drop_chain hps hk hle]

section Split

variable {child : NodeId} {splitLen : Nat} {headKey tailKey : PyVal}

/-- What a split does to one of the hash tables. -/
structure SplitTable (table table' : NodeId → Option (List H)) (child m : NodeId)
    (splitLen pageSize : Nat) : Prop where
  old : ∀ n, n ≠ m → n ≠ child → table' n = table n
  new : table' m = (splitNodeHashValue (table child) splitLen pageSize).1
  child : table' child = (splitNodeHashValue (table child) splitLen pageSize).2

theorem Recorder.splitNode_tables (hcm : child ≠ m) :
    let r' := (r.newNode m).splitNode child m splitLen pageSize
    SplitTable r.hashValue r'.hashValue child m splitLen pageSize ∧
      SplitTable r.eventHashValue r'.eventHashValue child m splitLen pageSize := by
  constructor <;> constructor <;> simp +contextual [splitNode, newNode, hcm, hcm.symm]

theorem Records.split (ht : Records hf pageSize s nodes salt P table)
    (hsalt : ∀ k lo hi, salt (k.getSlice lo hi) = salt k)
    (hP : ∀ k lo hi, P (k.getSlice lo hi) → P k) (h : Shape pageSize s nodes) (hps : 0 < pageSize)
    (g : SplitGuard pageSize s nodes child p splitLen headKey tailKey)
    (htable : SplitTable table table' child s.counter splitLen pageSize) :
    Records hf pageSize (s.splitNode child p splitLen headKey tailKey) (insert s.counter nodes)
      salt P table' := by
  have hcm := h.ne_counter g.mem
  obtain ⟨lp, hlp⟩ := h.wf.path_exists (h.mem_of_parent g.mem g.ne_root g.parent)
  have hunits : splitLen ≤ (s.key child).units.length := by
    rw [length_units]
    exact g.lt.le
  have hsplit : P (s.key child) → splitNodeHashValue (table child) splitLen pageSize = _ :=
    fun hPc => by
      rw [ht child g.mem g.ne_root p lp g.parent hlp hPc, splitNodeHashValue_eq hps g.dvd hunits]
  -- paths of old nodes are those they had before
  have hpath : ∀ {q lq lq'}, (s.trie nodes).Path q lq' →
      ((s.splitNode child p splitLen headKey tailKey).trie (insert s.counter nodes)).Path q lq →
      lq = lq' := by
    intro q lq lq' hq hq'
    rw [trie_splitNode g.lt.le hcm] at hq'
    exact hq'.unique (hq.split h.wf g.mem g.ne_root h.counter_not_mem)
  intro n hn hne q lq hpar hlq hPn
  by_cases hnc : n = child
  · subst hnc
    rw [splitNode_parent_child] at hpar
    cases hpar
    rw [splitNode_key_child] at hPn ⊢
    rw [htable.child, hsplit (hP _ _ _ hPn)]
    have htaken : unitsOf ((s.label n).take splitLen) = (s.key n).units.take splitLen := by
      rw [← h.unitsOf_label g.mem, unitsOf, unitsOf, map_take]
    rw [hlq.unique (h.path_split_new g hlp), pagesAfter_append hps (h.wf.dvd_path hlp), htaken,
      hsalt, units_drop _ g.lt.le]
  · by_cases hnm : n = s.counter
    · subst hnm
      rw [splitNode_parent_new hcm, g.parent] at hpar
      cases hpar
      rw [splitNode_key_new hcm] at hPn ⊢
      rw [htable.new, hsplit (hP _ _ _ hPn), hpath hlp hlq, hsalt, units_take _ g.lt.le]
    · have hmem := Finset.mem_of_mem_insert_of_ne hn hnm
      rw [splitNode_parent_old hnm hnc] at hpar
      rw [splitNode_key_old hnm hnc] at hPn ⊢
      obtain ⟨lq', hlq'⟩ := h.wf.path_exists (h.mem_of_parent hmem hne hpar)
      rw [htable.old n hnm hnc, hpath hlq' hlq]
      exact ht n hmem hne q lq' hpar hlq' hPn

theorem Hashed.split (hr : Hashed hf pageSize s nodes r) (h : Shape pageSize s nodes)
    (hps : 0 < pageSize) (g : SplitGuard pageSize s nodes child p splitLen headKey tailKey) :
    Hashed hf pageSize (s.splitNode child p splitLen headKey tailKey) (insert s.counter nodes)
      ((r.newNode s.counter).splitNode child s.counter splitLen pageSize) := by
  obtain ⟨hplain, hevent⟩ := splitNode_tables (r := r) (h.ne_counter g.mem)
  have hrm := h.ne_counter h.root_mem
  apply Hashed.of_records
  · exact (hplain.old _ hrm g.ne_root.symm).trans hr.root_plain
  · exact (hevent.old _ hrm g.ne_root.symm).trans hr.root_event
  · exact hr.records.split (fun _ _ _ => rfl) (fun _ _ _ hP => hP) h hps g hplain
  · exact hr.published.split (fun _ _ _ => rfl) (fun _ _ _ hP => hP) h hps g hevent

end Split

section Pages

/-- The events of the page loop of `record_store`, before coalescing. -/
def pageEvents (hf : HashFns H B) (pageSize : Nat) (key : RadixKey) (medium : StorageMedium) :
    List H → List PyVal → Option B → List (KVEvent B)
  | [], _, _ => []
  | h :: hs, units, parent =>
    pageEvent key (units.take pageSize) parent (hf.toInt64 h) medium ::
      pageEvents hf pageSize key medium hs (units.drop pageSize) (some (hf.toInt64 h))

/-- One round of the page loops. -/
theorem pages_cons {h : H} {hs : List H} {fuel : Nat} {units : List PyVal} (hps : 0 < pageSize)
    (hlen : (h :: hs).length * pageSize = units.length) (hfuel : units.length ≤ fuel) :
    units ≠ [] ∧ hs.length * pageSize = (units.drop pageSize).length ∧
      ∃ k, fuel = k + 1 ∧ (units.drop pageSize).length ≤ k := by
  rw [length_cons, Nat.succ_mul] at hlen
  rw [length_drop]
  exact ⟨ne_nil_of_length_pos (by omega), by omega, fuel - 1, by omega, by omega⟩

theorem removedHashes_eq (hf : HashFns H B) (hps : 0 < pageSize) (hashes : List H) :
    ∀ (fuel : Nat) (units : List PyVal), hashes.length * pageSize = units.length →
      units.length ≤ fuel →
      removedHashes hf pageSize fuel units hashes = .ok (hashes.map hf.toInt64) := by
  induction hashes with
  | nil =>
    intro fuel units hlen _
    have hnil : units = [] := eq_nil_of_length_eq_zero (by simpa using hlen.symm)
    subst hnil
    cases fuel <;> rfl
  | cons h hs ih =>
    intro fuel units hlen hfuel
    obtain ⟨hne, hdrop, fuel, rfl, hle⟩ := pages_cons hps hlen hfuel
    rw [removedHashes, if_neg hne]
    simp only [ih fuel _ hdrop hle, ok_bind, pure_ok, map_cons]

theorem length_pagesAfter (hps : 0 < pageSize) {salt : Option String} (hus : pageSize ∣ us.length) :
    (hf.pagesAfter pageSize salt lp us).length * pageSize = us.length :=
  length_chain hps hus

variable [DecidableEq B]

theorem storePages_eq (hf : HashFns H B) (hps : 0 < pageSize) (key : RadixKey) (medium : StorageMedium)
    (hashes : List H) :
    ∀ (fuel : Nat) (units : List PyVal) (parent : Option B) (queue : List (KVEvent B)),
      hashes.length * pageSize = units.length → units.length ≤ fuel →
      storePages hf pageSize key medium fuel units hashes parent queue =
        .ok ((pageEvents hf pageSize key medium hashes units parent).foldl enqueue queue) := by
  induction hashes with
  | nil =>
    intro fuel units parent queue hlen _
    have hnil : units = [] := eq_nil_of_length_eq_zero (by simpa using hlen.symm)
    subst hnil
    cases fuel <;> rfl
  | cons h hs ih =>
    intro fuel units parent queue hlen hfuel
    obtain ⟨hne, hdrop, fuel, rfl, hle⟩ := pages_cons hps hlen hfuel
    rw [storePages, if_neg hne, ih fuel _ _ _ hdrop hle]
    rfl

end Pages

section Leaf

variable {node : NodeId} {key : RadixKey} {value : List Int}

theorem Records.tip (ht : Records hf pageSize s nodes salt P table) (h : Shape pageSize s nodes)
    (hps : 0 < pageSize) (hlp : (s.trie nodes).Path node lp) (hne : node ≠ s.rootNode)
    (hP : P (s.key node)) : ∃ hs, table node = some hs ∧
      hs.getLast? = Chain.tip hf.page pageSize (hf.seed (salt (s.key node))) (unitsOf lp) := by
  have hmem := h.wf.mem_of_path hlp
  obtain ⟨q, lq, -, hpar, hlq, rfl⟩ := hlp.parent hne
  exact ⟨_, ht node hmem hne q lq hpar hlq hP, pagesAfter_getLast? hps (h.wf.dvd_path hlq)
    (h.unitsOf_label hmem) (h.units_ne_nil hmem hne)⟩

theorem Hashed.tip_event (hr : Hashed hf pageSize s nodes r) (h : Shape pageSize s nodes)
    (hps : 0 < pageSize) (hlp : (s.trie nodes).Path node lp) (hne : node ≠ s.rootNode)
    {salt : String} (hsalt : (s.key node).cacheSalt = some salt) :
    ∃ hs, r.eventHashValue node = some hs ∧
      hs.getLast? = tip hf.page pageSize (some (hf.salt salt)) (unitsOf lp) := by
  have htip := hr.published.tip h hps hlp hne (by simp [hsalt])
  rwa [hsalt] at htip

theorem path_nil_of_root (hlp : (s.trie nodes).Path node lp) (hroot : node = s.rootNode) :
    lp = [] := by
  rw [hroot] at hlp
  exact hlp.unique (Trie.path_root _)

variable (ht : t.toSkeleton = s.addLeaf node key value ck)
variable (g : AddGuard pageSize s nodes node key value ck)
variable (hlp : (s.trie nodes).Path node lp)
include ht

theorem leaf_key_of_mem (h : Shape pageSize s nodes) (hn : n ∈ nodes) : t.key n = s.key n := by
  rw [ht, addLeaf_key_old (h.ne_counter hn)]

theorem leaf_key : t.key s.counter = key := by
  rw [ht, addLeaf_key_new]

theorem leaf_parent : t.parent s.counter = some node := by
  rw [ht, addLeaf_parent_new]

variable (hr : Hashed hf pageSize s nodes r) (h : Shape pageSize s nodes) (hps : 0 < pageSize)
include g hlp hr h hps

theorem computeNodeHashValues_leaf :
    computeNodeHashValues hf t (r.newNode s.counter).hashValue pageSize s.counter =
      hf.pagesAfter pageSize none lp key.units := by
  have hnm := h.ne_counter g.mem
  have hvalue : (r.newNode s.counter).hashValue node = r.hashValue node := by
    simp [newNode, hnm]
  simp only [computeNodeHashValues, leaf_parent ht, hvalue, leaf_key ht, leaf_key_of_mem ht h g.mem]
  by_cases hroot : node = s.rootNode
  · rw [path_nil_of_root hlp hroot, hroot, hr.root_plain, h.root_key]
    rfl
  obtain ⟨hs, hhs, hlast⟩ := hr.records.tip h hps hlp hroot trivial
  rw [hhs]
  simp only [h.len_pos g.mem hroot, hlast]
  rfl

theorem computeNodeEventHashValues_leaf {salt : String} (hsalt : key.cacheSalt = some salt) :
    computeNodeEventHashValues hf t (r.newNode s.counter).eventHashValue pageSize s.counter salt =
      .ok (hf.pagesAfter pageSize (some salt) lp key.units,
        Function.update (r.newNode s.counter).eventHashValue s.counter
          (some (hf.pagesAfter pageSize (some salt) lp key.units))) := by
  have hnm := h.ne_counter g.mem
  have hnone : (r.newNode s.counter).eventHashValue s.counter = none := by
    simp [newNode]
  have hvalue : (r.newNode s.counter).eventHashValue node = r.eventHashValue node := by
    simp [newNode, hnm]
  have hcounter : t.counter + 1 = s.counter + 1 + 1 := by
    rw [ht]
    rfl
  have hkeym := leaf_key ht
  have hkeyn := leaf_key_of_mem ht h g.mem
  have hsame : node ≠ s.rootNode → (s.key node).cacheSalt = some salt :=
    fun hroot => (congrArg Prod.snd (g.same_ns hroot)).trans hsalt
  have hbelow : 0 < (s.key node).len → node ≠ s.rootNode := by
    rintro hpos rfl
    rw [h.root_key] at hpos
    exact lt_irrefl _ hpos
  -- the walk up passes the new leaf and stops at its parent
  have hstop : ¬ (0 < (t.key node).len ∧ (r.newNode s.counter).eventHashValue node = none) := by
    rw [hkeyn, hvalue]
    rintro ⟨hpos, hnone⟩
    have hroot := hbelow hpos
    obtain ⟨hs, hhs, -⟩ := hr.tip_event h hps hlp hroot (hsame hroot)
    rw [hhs] at hnone
    simp at hnone
  have hmissing : missingNodes t (r.newNode s.counter).eventHashValue (some salt)
      (t.counter + 1) s.counter [] = .ok ([s.counter], some node) := by
    rw [hcounter, missingNodes, if_pos ⟨by rw [hkeym]; exact g.pos, hnone⟩,
      if_neg (by rw [hkeym, hsalt]; simp), leaf_parent ht]
    simp only [nil_append]
    rw [missingNodes, if_neg hstop]
  have habove : ¬ (0 < (t.key node).len ∧ (t.key node).cacheSalt ≠ some salt) := by
    rw [hkeyn]
    rintro ⟨hpos, hne⟩
    exact hne (hsame (hbelow hpos))
  have hparent : ((r.eventHashValue node).bind List.getLast?).getD (hf.salt salt) =
      (tip hf.page pageSize (some (hf.salt salt)) (unitsOf lp)).getD (hf.salt salt) := by
    by_cases hroot : node = s.rootNode
    · rw [path_nil_of_root hlp hroot, hroot, hr.root_event]
      rfl
    · obtain ⟨hs, hhs, hlast⟩ := hr.tip_event h hps hlp hroot (hsame hroot)
      rw [hhs, Option.bind_some, hlast]
  have htip : some ((tip hf.page pageSize (some (hf.salt salt)) (unitsOf lp)).getD
      (hf.salt salt)) = tip hf.page pageSize (some (hf.salt salt)) (unitsOf lp) := by
    unfold tip
    cases (chain hf.page pageSize (some (hf.salt salt)) (unitsOf lp)).getLast? <;> rfl
  simp only [computeNodeEventHashValues, hnone, hmissing, habove, ok_bind, pure_ok, hvalue, hparent, reverse_singleton, fillHashes, hkeym,
    htip, Function.update_self]
  rfl

def Recorder.leafHashed (hf : HashFns H B) (pageSize : Nat) (r : Recorder H B) (m : NodeId)
    (key : RadixKey) (lp : List (Atom × Int)) : Recorder H B :=
  { r.newNode m with
    hashValue := Function.update (r.newNode m).hashValue m
      (some (hf.pagesAfter pageSize none lp key.units))
    eventHashValue :=
      if key.cacheSalt = none then (r.newNode m).eventHashValue
      else Function.update (r.newNode m).eventHashValue m
        (some (hf.pagesAfter pageSize key.cacheSalt lp key.units)) }

theorem nodeEventHashValues_leaf :
    (r.newNode s.counter).nodeEventHashValues hf t pageSize s.counter =
      .ok (hf.pagesAfter pageSize key.cacheSalt lp key.units,
        r.leafHashed hf pageSize s.counter key lp) := by
  have hnone : (r.newNode s.counter).hashValue s.counter = none := by simp [newNode]
  have hplain := computeNodeHashValues_leaf ht g hlp hr h hps
  unfold nodeEventHashValues leafHashed
  cases hsalt : key.cacheSalt with
  | none => simp only [hnone, hplain, leaf_key ht, hsalt, if_true]
  | some salt =>
    have hevent := computeNodeEventHashValues_leaf ht g hlp hr h hps hsalt
    simp only [hnone, hplain, leaf_key ht, hsalt, hevent, ok_bind, pure_ok, reduceCtorEq, if_false]

omit ht g hr hps in
theorem Records.leaf (hrec : Records hf pageSize s nodes salt P table)
    (hold : ∀ n, n ≠ s.counter → table' n = table n)
    (hnew : P key → table' s.counter = some (hf.pagesAfter pageSize (salt key) lp key.units)) :
    Records hf pageSize (s.addLeaf node key value ck) (insert s.counter nodes) salt P table' := by
  have hpath : ∀ {q lq lq'}, (s.trie nodes).Path q lq' →
      ((s.addLeaf node key value ck).trie (insert s.counter nodes)).Path q lq → lq = lq' := by
    intro q lq lq' hq hq'
    rw [trie_addLeaf] at hq'
    exact hq'.unique (hq.attach h.counter_not_mem)
  intro n hn hne q lq hpar hlq hPn
  by_cases hnm : n = s.counter
  · subst hnm
    rw [addLeaf_parent_new] at hpar
    cases hpar
    rw [addLeaf_key_new] at hPn ⊢
    rw [hpath hlp hlq, hnew hPn]
  · have hmem := Finset.mem_of_mem_insert_of_ne hn hnm
    rw [addLeaf_parent_old hnm] at hpar
    rw [addLeaf_key_old hnm] at hPn ⊢
    obtain ⟨lq', hlq'⟩ := h.wf.path_exists (h.mem_of_parent hmem hne hpar)
    rw [hold n hnm, hpath hlq' hlq]
    exact hrec n hmem hne q lq' hpar hlq' hPn

omit ht g hps in
theorem Hashed.leaf : Hashed hf pageSize (s.addLeaf node key value ck) (insert s.counter nodes)
    (r.leafHashed hf pageSize s.counter key lp) := by
  have hrm := h.ne_counter h.root_mem
  have hold : ∀ n, n ≠ s.counter →
      (r.leafHashed hf pageSize s.counter key lp).hashValue n = r.hashValue n ∧
        (r.leafHashed hf pageSize s.counter key lp).eventHashValue n = r.eventHashValue n := by
    intro n hn
    unfold leafHashed
    constructor
    · simp [newNode, hn]
    · split_ifs <;> simp [newNode, hn]
  apply Hashed.of_records
  · exact (hold _ hrm).1.trans hr.root_plain
  · exact (hold _ hrm).2.trans hr.root_event
  · exact Records.leaf hlp h hr.records (fun n hn => (hold n hn).1) fun _ => by
      simp [leafHashed]
  · exact Records.leaf hlp h hr.event (fun n hn => (hold n hn).2) fun hsalt => by
      simp [leafHashed, hsalt]

theorem parentBlockHash_leaf :
    (r.leafHashed hf pageSize s.counter key lp).parentBlockHash hf t s.counter =
      .ok (if node = s.rootNode then none
        else (tip hf.page pageSize (hf.seed key.cacheSalt) (unitsOf lp)).map
          hf.toInt64) := by
  have hnm := h.ne_counter g.mem
  have hparent : t.parent node = s.parent node := by
    rw [ht, addLeaf_parent_old hnm]
  unfold parentBlockHash
  simp only [leaf_parent ht, hparent, leaf_key ht]
  by_cases hroot : node = s.rootNode
  · rw [if_pos hroot, hroot, h.root_parent, if_pos rfl]
  obtain ⟨q, -, hq⟩ := h.parent_mem g.mem hroot
  rw [if_neg hroot, hq]
  cases hsalt : key.cacheSalt with
  | none =>
    obtain ⟨hs, hhs, hlast⟩ := hr.records.tip h hps hlp hroot trivial
    have hvalue : (r.leafHashed hf pageSize s.counter key lp).hashValue node = some hs := by
      simp [leafHashed, newNode, hnm, hhs]
    simp only [hvalue, ok_bind, pure_ok, Option.getD_some, hlast]
    rfl
  | some salt =>
    obtain ⟨hs, hhs, hlast⟩ := hr.tip_event h hps hlp hroot
      ((congrArg Prod.snd (g.same_ns hroot)).trans hsalt)
    have hvalue : (r.leafHashed hf pageSize s.counter key lp).eventHashValue node = some hs := by
      simp [leafHashed, newNode, hnm, hhs, hsalt]
    simp only [hvalue, ok_bind, pure_ok, hlast]
    rfl

variable [DecidableEq B]

def Recorder.stored (hf : HashFns H B) (pageSize : Nat) (r : Recorder H B) (s : Skeleton)
    (node : NodeId) (key : RadixKey) (lp : List (Atom × Int)) : Recorder H B :=
  { r.leafHashed hf pageSize s.counter key lp with
    queue := (pageEvents hf pageSize key .gpu (hf.pagesAfter pageSize key.cacheSalt lp key.units)
      key.units (if node = s.rootNode then none
        else (tip hf.page pageSize (hf.seed key.cacheSalt) (unitsOf lp)).map
          hf.toInt64)).foldl enqueue r.queue }

theorem recordStore_leaf : (r.newNode s.counter).recordStore hf t pageSize true s.counter .gpu =
      .ok (r.stored hf pageSize s node key lp) := by
  have hunits : pageSize ∣ key.units.length := by rw [length_units]; exact g.dvd
  have hstore := storePages_eq hf hps key .gpu
    (hf.pagesAfter pageSize key.cacheSalt lp key.units) key.len key.units
    (if node = s.rootNode then none
      else (tip hf.page pageSize (hf.seed key.cacheSalt) (unitsOf lp)).map hf.toInt64)
    r.queue (length_pagesAfter hps hunits) (by rw [length_units])
  have hqueue : (r.leafHashed hf pageSize s.counter key lp).queue = r.queue := rfl
  simp only [recordStore,
    nodeEventHashValues_leaf ht g hlp hr h hps, parentBlockHash_leaf ht g hlp hr h hps,
    leaf_key ht, hqueue, hstore, ok_bind]
  rfl

end Leaf

theorem Hashed.of_queue {r' : Recorder H B} (hr : Hashed hf pageSize s nodes r)
    (hplain : r'.hashValue = r.hashValue) (hevent : r'.eventHashValue = r.eventHashValue) :
    Hashed hf pageSize s nodes r' := by
  refine ⟨?_, ?_, ?_, ?_⟩
  · rw [hplain, hr.root_plain]
  · rw [hevent, hr.root_event]
  · rw [hplain]
    exact hr.plain
  · rw [hevent]
    exact hr.event

theorem Hashed.removeChild {x : NodeId} (hr : Hashed hf pageSize s nodes r)
    (h : Shape pageSize s nodes) (hx : IsChild pageSize s nodes p ck x)
    (hleaf : (s.children x).keys = []) :
    Hashed hf pageSize (s.removeChild p ck) (nodes.erase x) r := by
  have hleaf' := (h.children_empty_iff hx.mem).mp hleaf
  -- no remaining node hangs below `x`, so every path is the one it was
  have hpath : ∀ n ∈ nodes.erase x, n ≠ s.rootNode → ∀ q lq, s.parent n = some q →
      ((s.removeChild p ck).trie (nodes.erase x)).Path q lq → (s.trie nodes).Path q lq := by
    intro n hn hne q lq hpar hlq
    have hmem := Finset.mem_of_mem_erase hn
    have hqx : q ≠ x := by
      rintro rfl
      exact hne (hleaf' n hmem hpar)
    obtain ⟨lq', hlq'⟩ := h.wf.path_exists (h.mem_of_parent hmem hne hpar)
    rwa [hlq.unique (hlq'.detach hleaf' hqx)]
  refine { hr with plain := ?_, event := ?_ }
  · intro n hn hne q lq hpar hlq
    exact hr.plain n (Finset.mem_of_mem_erase hn) hne q lq hpar (hpath n hn hne q lq hpar hlq)
  · intro n hn hne q lq hpar hlq
    exact hr.event n (Finset.mem_of_mem_erase hn) hne q lq hpar (hpath n hn hne q lq hpar hlq)

variable [DecidableEq B]

def Recorder.removed (hf : HashFns H B) (pageSize : Nat) (r : Recorder H B) (key : RadixKey)
    (lp : List (Atom × Int)) : Recorder H B :=
  { r with
    queue := enqueue r.queue
      (.blockRemoved ((hf.pagesAfter pageSize key.cacheSalt lp key.units).map hf.toInt64) .gpu) }

theorem recordRemove_eq (hkey : t.key n = s.key n) (hr : Hashed hf pageSize s nodes r)
    (h : Shape pageSize s nodes) (hps : 0 < pageSize) (hn : n ∈ nodes) (hne : n ≠ s.rootNode)
    (hpar : s.parent n = some p) (hlp : (s.trie nodes).Path p lp) :
    r.recordRemove hf t pageSize true n .gpu = .ok (r.removed hf pageSize (s.key n) lp) := by
  have hunits : pageSize ∣ (s.key n).units.length := by
    rw [length_units]
    exact h.dvd_len hn hne
  have hremoved := removedHashes_eq hf hps
    (hf.pagesAfter pageSize (s.key n).cacheSalt lp (s.key n).units) (s.key n).len
    (s.key n).units (length_pagesAfter hps hunits) (by rw [length_units])
  have hnonempty : (hf.pagesAfter pageSize (s.key n).cacheSalt lp (s.key n).units).map hf.toInt64 ≠
      [] := by
    simpa [pagesAfter] using chain_ne_nil hps (h.units_ne_nil hn hne)
  have hhashes : r.nodeEventHashValues hf t pageSize n =
      .ok (hf.pagesAfter pageSize (s.key n).cacheSalt lp (s.key n).units, r) := by
    unfold nodeEventHashValues
    rw [hr.plain n hn hne p lp hpar hlp, hkey]
    cases hsalt : (s.key n).cacheSalt with
    | none => rfl
    | some salt =>
      have hevent := hr.event n hn hne p lp hpar hlp (by simp [hsalt])
      rw [hsalt] at hevent
      simp only [computeNodeEventHashValues, hevent, ok_bind, pure_ok]
  simp only [recordRemove, hhashes, hkey, hremoved, hnonempty, ok_bind]
  rfl

end

end SparkInfer.Radix
