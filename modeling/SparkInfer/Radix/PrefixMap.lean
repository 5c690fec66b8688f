import SparkInfer.Radix.Content

/-!
# The radix cache as a prefix map

Read through its root paths, a tree is a finite map from a namespace and a
page-aligned key to the KV indices of that key.  `match_prefix` looks up the
longest prefix of a key, `insert` adds the remaining prefixes, `evict` takes
whole suffixes away.
-/

namespace SparkInfer.Radix

open Lib Lib.CommonPrefix List RadixKey Trie

variable {H B : Type} {cfg : Config} {hf : HashFns H B}
variable {l : List (Atom × Int)} {key : RadixKey} {c c' : RadixCache H B} {nodes' : Finset NodeId}
variable {p x : NodeId} {Kp : List PyVal} {Vp : List Int}
variable {V' V value : List Int} {nodes : Finset NodeId} {ns : Namespace} {K K' : List PyVal}
variable {pageSize d : Nat} {n : NodeId} {s : Sys H B}

/-- The root paths of a namespace, with the units and KV indices they spell. -/
inductive RootPath (s : Skeleton) (ns : Namespace) : NodeId → List PyVal → List Int → Prop
  | root : RootPath s ns s.rootNode [] []
  | child {p n : NodeId} {ck : PyVal} {K : List PyVal} {V : List Int}
      (hp : RootPath s ns p K V) (hlook : (s.children p).lookup ck = some n)
      (hns : (s.key n).ns = ns) : RootPath s ns n (K ++ (s.key n).units) (V ++ s.value n)

/-- The map of a tree: its root paths, cut at any page boundary. -/
def Maps (pageSize : Nat) (s : Skeleton) (ns : Namespace) (K : List PyVal) (V : List Int) : Prop :=
  ∃ n K' V' c, RootPath s ns n K' V' ∧ pageSize ∣ c ∧ K = K'.take c ∧ V = V'.take c

/-- `V` is what the map has for the longest page-aligned prefix of `key`. -/
structure LongestMatch (pageSize : Nat) (s : Skeleton) (key : RadixKey) (V : List Int) : Prop where
  maps : Maps pageSize s key.ns (key.units.take V.length) V
  longest : ∀ k V', k ≤ key.len → Maps pageSize s key.ns (key.units.take k) V' → k ≤ V.length

/-- The entry `(K, V)` of `t` went away with the node `x`, from its first page on. -/
structure EvictedWith (pageSize : Nat) (t t' : Tree) (ns : Namespace) (K : List PyVal)
    (V : List Int) (x : NodeId) : Prop where
  was_in : InTree t.toSkeleton x
  not_in : ¬ InTree t'.toSkeleton x
  unlocked : t.lockRef x = 0
  ends : ∃ p Kp Vp k, RootPath t.toSkeleton ns p Kp Vp ∧ t.parent x = some p ∧ 0 < k ∧
    k ≤ (t.key x).len ∧ K = Kp ++ (t.key x).units.take k ∧ V = Vp ++ (t.value x).take k ∧
    ∀ K' V', (Kp ++ (t.key x).units.take pageSize) <+: K' → ¬ Maps pageSize t'.toSkeleton ns K' V'

/-! ## Units and indices side by side -/

def stored (ns : Namespace) (K : List PyVal) (V : List Int) : List (Atom × Int) :=
  (K.map fun u => (ns, u)).zip V

section Stored

variable {ns' : Namespace}

theorem stored_append (hlen : K.length = V.length) :
    stored ns (K ++ K') (V ++ V') = stored ns K V ++ stored ns K' V' := by
  rw [stored, map_append, zip_append (by simpa using hlen)]
  rfl

theorem stored_take (c : Nat) : (stored ns K V).take c = stored ns (K.take c) (V.take c) := by
  rw [stored, stored, map_take, zip_eq_zipWith, zip_eq_zipWith, take_zipWith]

section

variable (hlen : K.length = V.length)
include hlen

theorem keys_stored : Trie.keys (stored ns K V) = K.map fun u => (ns, u) := by
  rw [Trie.keys, stored, map_fst_zip (by simp [hlen])]

theorem vals_stored : (stored ns K V).map Prod.snd = V := by
  rw [stored, map_snd_zip (by simp [hlen])]

theorem length_stored : (stored ns K V).length = K.length := by
  simp [stored, hlen]

theorem stored_inj (hlen' : K'.length = V'.length) :
    stored ns K V = stored ns' K' V' ↔ K = K' ∧ V = V' ∧ (K = [] ∨ ns = ns') := by
  constructor
  · intro h
    have hkeys : K.map (fun u => (ns, u)) = K'.map fun u => (ns', u) := by
      rw [← keys_stored hlen, h, keys_stored hlen']
    have hK : K = K' := by
      have hsnd := congrArg (List.map Prod.snd) hkeys
      simpa [map_map] using hsnd
    have hV : V = V' := by
      have hsnd := congrArg (List.map Prod.snd) h
      rwa [vals_stored hlen, vals_stored hlen'] at hsnd
    refine ⟨hK, hV, ?_⟩
    cases K with
    | nil => exact .inl rfl
    | cons u us =>
      subst hK
      exact .inr (by simpa using (cons.inj hkeys).1)
  · rintro ⟨rfl, rfl, rfl | rfl⟩
    · rfl
    · rfl

end

theorem label_eq_stored (s : Skeleton) :
    s.label n = stored (s.key n).ns (s.key n).units (s.value n) := rfl

end Stored

section Paths

variable {s : Skeleton}
theorem RootPath.path (hp : RootPath s ns n K V) (h : Shape pageSize s nodes) :
    n ∈ nodes ∧ K.length = V.length ∧ (s.trie nodes).Path n (stored ns K V) := by
  induction hp with
  | root => exact ⟨h.root_mem, rfl, path_root _⟩
  | child _ hlook hns ih =>
    obtain ⟨hmem, hlen, hpath⟩ := ih
    have hchild := (h.lookup _ hmem _ _).mp hlook
    refine ⟨hchild.mem, ?_, ?_⟩
    · rw [length_append, length_append, hlen, length_units, h.value_len _ hchild.mem]
    · rw [stored_append hlen, ← hns, ← label_eq_stored, hns]
      exact hpath.child hchild.mem hchild.ne_root hchild.parent

variable (h : Shape pageSize s nodes)
include h

theorem Shape.rootPath (hl : (s.trie nodes).Path n l) (hns : n ≠ s.rootNode → (s.key n).ns = ns) :
    ∃ K V, RootPath s ns n K V ∧ l = stored ns K V := by
  obtain ⟨ns', hspine, rfl⟩ := hl
  induction hspine with
  | root => exact ⟨[], [], .root, rfl⟩
  | @snoc n p ns' hmem hne hpar _ ih =>
    obtain ⟨ck, hck⟩ := h.childKey_ok hmem hne
    have hlook := (h.lookup p (h.mem_of_parent hmem hne hpar) ck n).mpr ⟨hmem, hne, hpar, hck⟩
    obtain ⟨K, V, hK, hword⟩ := ih fun hp => (h.same_ns n hmem hne p hpar hp).trans (hns hne)
    refine ⟨_, _, .child hK hlook (hns hne), ?_⟩
    rw [stored_append (hK.path h).2.1, ← hns hne, ← label_eq_stored, hns hne, word_append,
      word_cons, word_nil, append_nil, hword]
    rfl

theorem Shape.maps_iff : Maps pageSize s ns K V ↔
      K.length = V.length ∧ (s.trie nodes).Entry pageSize (stored ns K V) := by
  constructor
  · rintro ⟨n, K', V', c, hp, hc, rfl, rfl⟩
    obtain ⟨-, hlen, hpath⟩ := hp.path h
    exact ⟨by simp [hlen], n, _, c, hpath, hc, (stored_take c).symm⟩
  rintro ⟨hlen, n, l, c, hl, hc, he⟩
  by_cases hK : K = []
  · subst hK
    exact ⟨s.rootNode, [], [], 0, .root, dvd_zero _, rfl,
      by rw [eq_nil_of_length_eq_zero hlen.symm]; rfl⟩
  obtain ⟨K', V', hp, rfl⟩ := h.rootPath hl fun _ => rfl
  have hlen' := (hp.path h).2.1
  rw [stored_take, stored_inj hlen (by simp [hlen'])] at he
  obtain ⟨hKe, hVe, hnil | hns⟩ := he
  · exact absurd hnil hK
  · exact ⟨n, K', V', c, hns ▸ hp, hc, hKe, hVe⟩

theorem Shape.maps_root (hnodes : nodes = {s.rootNode}) :
    Maps pageSize s ns K V ↔ K = [] ∧ V = [] := by
  rw [h.maps_iff, h.entry_root hnodes]
  constructor
  · rintro ⟨hlen, hnil⟩
    have heq : stored ns K V = stored ns [] [] := hnil
    obtain ⟨hK, hV, -⟩ := (stored_inj hlen rfl).mp heq
    exact ⟨hK, hV⟩
  · rintro ⟨rfl, rfl⟩
    exact ⟨rfl, rfl⟩

theorem Shape.maps_unique (hV : Maps pageSize s ns K V) (hV' : Maps pageSize s ns K V') :
    V = V' := by
  obtain ⟨hlen, he⟩ := h.maps_iff.mp hV
  obtain ⟨hlen', he'⟩ := h.maps_iff.mp hV'
  have hkeys : keys (stored ns K V) = keys (stored ns K V') := by
    rw [keys_stored hlen, keys_stored hlen']
  exact ((stored_inj hlen hlen').mp (h.wf.entry_unique he he' hkeys)).2.1

theorem Shape.longestMatch (hloc : (s.trie nodes).Located pageSize key.tagged n l) :
    l = stored key.ns (key.units.take l.length) (l.map Prod.snd) ∧
      LongestMatch pageSize s key (l.map Prod.snd) := by
  have hlen : l.length ≤ key.len := by
    have hkeys := congrArg length hloc.key
    simp only [length_map, length_take, length_tagged] at hkeys
    omega
  have hself : l = stored key.ns (key.units.take l.length) (l.map Prod.snd) := by
    have hzip : l = (l.map Prod.fst).zip (l.map Prod.snd) := zip_of_prod rfl rfl
    have hfst : l.map Prod.fst = key.tagged.take l.length := hloc.key
    rwa [hfst, tagged, ← map_take] at hzip
  refine ⟨hself, ?_, ?_⟩
  · rw [length_map]
    refine h.maps_iff.mpr ⟨by simp [hlen], ?_⟩
    rw [← hself]
    exact entry_of_path h.wf hloc.path
  intro k V' hk hV'
  obtain ⟨hlen', he⟩ := h.maps_iff.mp hV'
  have hstored : (stored key.ns (key.units.take k) V').length = k := by
    rw [length_stored hlen']
    simp [hk]
  have hle := h.wf.longest hloc he (by
    rw [keys_stored hlen', hstored, tagged, map_take])
  rwa [hstored, ← length_map] at hle

theorem LongestMatch.unique (hV : LongestMatch pageSize s key V)
    (hV' : LongestMatch pageSize s key V') : V = V' := by
  have hle : ∀ {W : List Int}, LongestMatch pageSize s key W → W.length ≤ key.len := by
    intro W hW
    have hlen := (h.maps_iff.mp hW.maps).1
    rw [length_take, length_units] at hlen
    omega
  have hlen : V.length = V'.length :=
    le_antisymm (hV'.longest _ _ (hle hV) hV.maps) (hV.longest _ _ (hle hV') hV'.maps)
  have hmaps := hV'.maps
  rw [← hlen] at hmaps
  exact h.maps_unique hV.maps hmaps

end Paths

section Match

/-- `match_prefix` keeps the map and returns the longest match, with the node it
ends at. -/
def MatchRefines (cfg : Config) (c : RadixCache H B) (key : RadixKey) : Prop :=
  ∃ c' r, c.matchPrefix cfg key = .ok (c', r) ∧
    (∀ ns K V, Maps cfg.pageSize c'.tree.toSkeleton ns K V ↔
      Maps cfg.pageSize c.tree.toSkeleton ns K V) ∧
    LongestMatch cfg.pageSize c.tree.toSkeleton (alignedKey cfg key) r.deviceIndices ∧
    RootPath c'.tree.toSkeleton key.ns r.lastDeviceNode
      ((alignedKey cfg key).units.take r.deviceIndices.length) r.deviceIndices

theorem ns_alignedKey (cfg : Config) (key : RadixKey) : (alignedKey cfg key).ns = key.ns := by
  rw [alignedKey, ns_pageAligned]
  unfold maybeToBigramView
  split_ifs <;> rfl

theorem SysInv.matchPrefix_run (h : SysInv cfg hf s nodes) :
    ∃ c' nodes' n l, s.cache.matchPrefix cfg key = .ok (c', ⟨l.map Prod.snd, n⟩) ∧
      Splits cfg s.cache nodes c' nodes' ∧
      (c'.tree.trie nodes').Located cfg.pageSize (alignedKey cfg key).tagged n l := by
  cases hdis : cfg.disable with
  | false => exact matchPrefix_spec h.inv.shape hdis key
  | true =>
    refine ⟨s.cache, nodes, s.cache.tree.rootNode, [], ?_, .refl, path_root _, rfl, ?_⟩
    · simp [RadixCache.matchPrefix, hdis]
    · intro n hn hne
      rw [h.disabled hdis] at hn
      exact absurd (mem_singleton.mp hn) hne

theorem Splits.maps (hs : Splits cfg c nodes c' nodes')
    (h : Shape cfg.pageSize c.tree.toSkeleton nodes) :
    Maps cfg.pageSize c'.tree.toSkeleton ns K V ↔ Maps cfg.pageSize c.tree.toSkeleton ns K V := by
  rw [(hs.shape h).maps_iff, h.maps_iff, hs.entry h]

theorem LongestMatch.congr {t t' : Skeleton} (h : LongestMatch pageSize t key V)
    (heq : ∀ K V, Maps pageSize t' key.ns K V ↔ Maps pageSize t key.ns K V) :
    LongestMatch pageSize t' key V :=
  ⟨(heq _ _).mpr h.maps, fun k V' hk hV' => h.longest k V' hk ((heq _ _).mp hV')⟩

theorem SysInv.matchRefines (h : SysInv cfg hf s nodes) (key : RadixKey) :
    MatchRefines cfg s.cache key := by
  obtain ⟨c', nodes', n, l, hrun, hsplits, hloc⟩ := h.matchPrefix_run
  have hmaps : ∀ ns K V, Maps cfg.pageSize c'.tree.toSkeleton ns K V ↔
      Maps cfg.pageSize s.cache.tree.toSkeleton ns K V := fun _ _ _ => hsplits.maps h.inv.shape
  have hshape := hsplits.shape h.inv.shape
  obtain ⟨hself, hlong⟩ := hshape.longestMatch hloc
  refine ⟨c', _, hrun, hmaps, hlong.congr fun K V => (hmaps _ K V).symm, ?_⟩
  have hns : n ≠ c'.tree.rootNode → (c'.tree.key n).ns = key.ns := by
    intro hne
    rw [Located.same_ns hshape hloc hne, ns_alignedKey]
  obtain ⟨K, V, hp, hl⟩ := hshape.rootPath hloc.path hns
  obtain ⟨-, hKV, -⟩ := hp.path hshape
  have hlen : ((alignedKey cfg key).units.take l.length).length = (l.map Prod.snd).length := by
    have hlen := congrArg List.length hloc.key
    simp only [length_map, length_take, length_tagged] at hlen
    simp only [length_take, length_units, length_map]
    omega
  obtain ⟨rfl, rfl, -⟩ := (stored_inj hKV hlen).mp (hl.symm.trans hself)
  rwa [length_map]

end Match

section Insert

variable [DecidableEq B]

/-- `insert` reports the length `match_prefix` finds and adds the longer prefixes
of the key, with the old indices as far as they go and the new ones after. -/
def InsertRefines (cfg : Config) (hf : HashFns H B) (c : RadixCache H B) (key : RadixKey)
    (value : Option (List Int)) (priority : Int) (chunked : Bool) : Prop :=
  ∃ c' r cm m, c.insert cfg hf key value priority chunked = .ok (c', r) ∧
    c.matchPrefix cfg key = .ok (cm, m) ∧ r.prefixLen = m.deviceIndices.length ∧
    ∀ ns K V, Maps cfg.pageSize c'.tree.toSkeleton ns K V ↔
      Maps cfg.pageSize c.tree.toSkeleton ns K V ∨
        (ns = key.ns ∧ ∃ d, cfg.pageSize ∣ d ∧ r.prefixLen < d ∧ d ≤ (alignedKey cfg key).len ∧
          K = (alignedKey cfg key).units.take d ∧
          V = (m.deviceIndices ++ (insertValue cfg key value).drop r.prefixLen).take d)

theorem stored_insertedWord (hval : value.length = key.len)
    (hl : l = stored key.ns (key.units.take l.length) (l.map Prod.snd)) (hle : l.length < d)
    (hd : d ≤ key.len) :
    K.length = V.length ∧ stored ns K V = (insertedWord key.tagged value l).take d ↔
      ns = key.ns ∧ K = key.units.take d ∧ V = (l.map Prod.snd ++ value.drop l.length).take d := by
  have hlen : (key.units.take l.length).length = (l.map Prod.snd).length := by
    simp
    omega
  have hword : insertedWord key.tagged value l =
      stored key.ns key.units (l.map Prod.snd ++ value.drop l.length) := by
    conv_rhs => rw [← take_append_drop l.length key.units, stored_append hlen, ← hl]
    rw [insertedWord, stored, tagged, map_drop]
  have hdlen : (key.units.take d).length =
      ((l.map Prod.snd ++ value.drop l.length).take d).length := by
    simp
    omega
  rw [hword, stored_take]
  constructor
  · rintro ⟨hKV, heq⟩
    obtain ⟨hK, hV, hns⟩ := (stored_inj hKV hdlen).mp heq
    refine ⟨hns.resolve_left ?_, hK, hV⟩
    intro hnil
    have hzero := congrArg List.length hK
    rw [hnil, length_take, length_units] at hzero
    simp only [length_nil] at hzero
    omega
  · rintro ⟨rfl, rfl, rfl⟩
    exact ⟨hdlen, rfl⟩

theorem InsertEnd.maps {last : NodeId}
    (hend : InsertEnd cfg hf c nodes key.tagged value n l c' nodes' last)
    (h : Shape cfg.pageSize c.tree.toSkeleton nodes)
    (h' : Shape cfg.pageSize c'.tree.toSkeleton nodes') (hval : value.length = key.len)
    (hloc : (c.tree.trie nodes).Located cfg.pageSize key.tagged n l) (ns : Namespace)
    (K : List PyVal) (V : List Int) :
    Maps cfg.pageSize c'.tree.toSkeleton ns K V ↔ Maps cfg.pageSize c.tree.toSkeleton ns K V ∨
        (ns = key.ns ∧ ∃ d, cfg.pageSize ∣ d ∧ l.length < d ∧ d ≤ key.len ∧
          K = key.units.take d ∧ V = (l.map Prod.snd ++ value.drop l.length).take d) := by
  obtain ⟨hself, -⟩ := h.longestMatch hloc
  rw [h'.maps_iff, hend.entry h hloc.path, h.maps_iff, and_or_left]
  refine or_congr Iff.rfl ⟨?_, ?_⟩
  · rintro ⟨hKV, d, hd, hlt, hle, heq⟩
    rw [length_tagged] at hle
    obtain ⟨hns, hK, hV⟩ := (stored_insertedWord hval hself hlt hle).mp ⟨hKV, heq⟩
    exact ⟨hns, d, hd, hlt, hle, hK, hV⟩
  · rintro ⟨hns, d, hd, hlt, hle, hK, hV⟩
    obtain ⟨hKV, heq⟩ := (stored_insertedWord hval hself hlt hle).mpr ⟨hns, hK, hV⟩
    exact ⟨hKV, d, hd, hlt, by simpa using hle, heq⟩

theorem SysInv.insertRefines (h : SysInv cfg hf s nodes) (hen : cfg.disable = false)
    (key : RadixKey) (value : Option (List Int)) (priority : Int) (chunked : Bool)
    (hfit : ValueFits cfg key value) : InsertRefines cfg hf s.cache key value priority chunked := by
  obtain ⟨c₁, nodes₁, n, l, c', nodes', last, hrun, hsplits, hloc, hend⟩ :=
    insert_spec h.inv hen key value priority chunked hfit
  obtain ⟨cm, m, hmatch, -, hlongest, -⟩ := h.matchRefines key
  have hshape₁ := hsplits.shape h.inv.shape
  have hshape' := (hend.inv (hsplits.inv h.inv) hloc.path).shape
  obtain ⟨-, hlong⟩ := hshape₁.longestMatch hloc
  -- both walks end at the one longest match
  have hindices := hlongest.unique h.inv.shape (hlong.congr fun K V => (hsplits.maps h.inv.shape).symm)
  refine ⟨c', _, cm, m, hrun, hmatch, by simp [hindices], ?_⟩
  intro ns K V
  rw [hend.maps hshape₁ hshape' (length_insertValue hfit) hloc, hsplits.maps h.inv.shape, hindices,
    ns_alignedKey]

end Insert

section Evict

variable [DecidableEq B]

/-- `evict` only takes entries away, each with an unlocked node it ended in. -/
def EvictRefines (cfg : Config) (hf : HashFns H B) (c : RadixCache H B)
    (tie : List NodeId → Nat) (numTokens : Nat) : Prop :=
  ∃ c' k, c.evict cfg hf tie numTokens = .ok (c', k) ∧
    (∀ ns K V, Maps cfg.pageSize c'.tree.toSkeleton ns K V →
      Maps cfg.pageSize c.tree.toSkeleton ns K V) ∧
    ∀ ns K V, Maps cfg.pageSize c.tree.toSkeleton ns K V →
      ¬ Maps cfg.pageSize c'.tree.toSkeleton ns K V →
      ∃ x, EvictedWith cfg.pageSize c.tree c'.tree ns K V x

theorem SysInv.evict_run (h : SysInv cfg hf s nodes) (tie : List NodeId → Nat) (numTokens : Nat) :
    ∃ c' nodes' xs k, s.cache.evict cfg hf tie numTokens = .ok (c', k) ∧
      Deletes cfg hf s.cache nodes c' nodes' xs := by
  cases hdis : cfg.disable with
  | false =>
    obtain ⟨c', nodes', xs, k, hrun, hdel, -, -⟩ := evict_spec h.inv hdis tie numTokens
    exact ⟨c', nodes', xs, k, hrun, hdel⟩
  | true => exact ⟨s.cache, nodes, [], 0, by simp [RadixCache.evict, hdis], .refl⟩

theorem Deletes.gone {xs : List NodeId} (hd : Deletes cfg hf c nodes c' nodes' xs)
    (h : Shape cfg.pageSize c.tree.toSkeleton nodes) (hx : x ∈ xs) (hpar : c.tree.parent x = some p)
    (hp : RootPath c.tree.toSkeleton (c.tree.key x).ns p K V)
    (hpre : (K ++ (c.tree.key x).units.take cfg.pageSize) <+: K') :
    ¬ Maps cfg.pageSize c'.tree.toSkeleton (c.tree.key x).ns K' V' := by
  intro hmaps
  obtain ⟨hmem, hne, -⟩ := hd.deleted_mem hx
  obtain ⟨-, hKV, hpath⟩ := hp.path h
  obtain ⟨hlen', he⟩ := (hd.shape h).maps_iff.mp hmaps
  have hpage := h.page_le_len hmem hne
  have hdvd : cfg.pageSize ∣ K.length + cfg.pageSize := by
    refine dvd_add ?_ dvd_rfl
    have hdvd := h.wf.dvd_path hpath
    rwa [length_stored hKV] at hdvd
  -- the cut of the surviving entry after the first page of `x` is an entry of both trees
  have hcut := he.take hdvd
  have hold := ((hd.entry h).mp hcut).1
  have hlabel : (c.tree.trie nodes).label x =
      stored (c.tree.key x).ns (c.tree.key x).units (c.tree.value x) := rfl
  have hself : (c.tree.trie nodes).Entry cfg.pageSize
      (stored (c.tree.key x).ns K V ++ ((c.tree.trie nodes).label x).take cfg.pageSize) := by
    refine ⟨x, _, K.length + cfg.pageSize, hpath.child hmem hne hpar, hdvd, ?_⟩
    have hle : (stored (c.tree.key x).ns K V).length ≤ K.length + cfg.pageSize := by
      rw [length_stored hKV]
      exact Nat.le_add_right _ _
    rw [take_append, take_of_length_le hle, length_stored hKV, Nat.add_sub_cancel_left]
  have hkeys : K'.take (K.length + cfg.pageSize) = K ++ (c.tree.key x).units.take cfg.pageSize := by
    have hlen : (K ++ (c.tree.key x).units.take cfg.pageSize).length = K.length + cfg.pageSize := by
      simp [hpage]
    rw [← hlen]
    exact (prefix_iff_eq_take.mp hpre).symm
  have hvlen : (c.tree.key x).units.length = (c.tree.value x).length := by
    rw [length_units, h.value_len x hmem]
  have heq := h.wf.entry_unique hold hself (by
    rw [hlabel, stored_take, stored_take, ← stored_append hKV, keys_stored (by simp [hlen']),
      keys_stored (by simp [hKV, hvlen]), hkeys])
  refine ((hd.entry h).mp hcut).2 x hx p _ hpar hpath ⟨cfg.pageSize, cfg.pageSize_pos, ?_, heq⟩
  exact h.wf.page_le_label hmem hne

theorem Shape.endsIn_iff {s : Skeleton} (h : Shape pageSize s nodes) (hx : x ∈ nodes)
    (hKp : Kp.length = Vp.length) (hK : K.length = V.length) :
    EndsIn (s.trie nodes) x (stored (s.key x).ns Kp Vp) (stored ns K V) ↔
      ns = (s.key x).ns ∧ ∃ k, 0 < k ∧ k ≤ (s.key x).len ∧ K = Kp ++ (s.key x).units.take k ∧
        V = Vp ++ (s.value x).take k := by
  have hlabel : (s.trie nodes).label x = stored (s.key x).ns (s.key x).units (s.value x) := rfl
  have hvlen : (s.key x).units.length = (s.value x).length := by
    rw [length_units, h.value_len x hx]
  have hcut : ∀ k, stored (s.key x).ns Kp Vp ++ ((s.trie nodes).label x).take k =
      stored (s.key x).ns (Kp ++ (s.key x).units.take k) (Vp ++ (s.value x).take k) := by
    intro k
    rw [hlabel, stored_take, stored_append hKp]
  have hklen : ∀ k, (Kp ++ (s.key x).units.take k).length = (Vp ++ (s.value x).take k).length := by
    simp [hKp, hvlen]
  unfold EndsIn
  rw [show ((s.trie nodes).label x).length = (s.key x).len from h.length_label hx]
  constructor
  · rintro ⟨k, hk, hle, heq⟩
    rw [hcut, stored_inj hK (hklen k)] at heq
    obtain ⟨hKeq, hVeq, hnil | hns⟩ := heq
    · have hzero := congrArg length hKeq
      simp only [hnil, length_nil, length_append, length_take, length_units] at hzero
      omega
    · exact ⟨hns, k, hk, hle, hKeq, hVeq⟩
  · rintro ⟨rfl, k, hk, hle, rfl, rfl⟩
    exact ⟨k, hk, hle, (hcut k).symm⟩

theorem SysInv.evictRefines (h : SysInv cfg hf s nodes) (tie : List NodeId → Nat)
    (numTokens : Nat) : EvictRefines cfg hf s.cache tie numTokens := by
  obtain ⟨c', nodes', xs, k, hrun, hd⟩ := h.evict_run tie numTokens
  have hshape := h.inv.shape
  have hshape' := hd.shape hshape
  refine ⟨c', k, hrun, ?_, ?_⟩
  · intro ns K V hmaps
    obtain ⟨hlen, he⟩ := hshape'.maps_iff.mp hmaps
    exact hshape.maps_iff.mpr ⟨hlen, ((hd.entry hshape).mp he).1⟩
  intro ns K V hmaps hgone
  obtain ⟨hlen, he⟩ := hshape.maps_iff.mp hmaps
  have hends : ∃ x ∈ xs, ∃ p lp, s.cache.tree.parent x = some p ∧
      (s.cache.tree.trie nodes).Path p lp ∧
      EndsIn (s.cache.tree.trie nodes) x lp (stored ns K V) := by
    by_contra hno
    push Not at hno
    exact hgone (hshape'.maps_iff.mpr ⟨hlen, (hd.entry hshape).mpr ⟨he, hno⟩⟩)
  obtain ⟨x, hx, p, lp, hpar, hlp, hend⟩ := hends
  obtain ⟨hmem, hne, hunlocked⟩ := hd.deleted_mem hx
  obtain ⟨Kp, Vp, hp, rfl⟩ := hshape.rootPath hlp (hshape.same_ns x hmem hne p hpar)
  obtain ⟨rfl, j, hj, hjle, hK, hV⟩ := (hshape.endsIn_iff hmem (hp.path hshape).2.1 hlen).mp hend
  refine ⟨x, hshape.inTree_iff.mpr hmem, ?_, hunlocked, p, Kp, Vp, j, hp, hpar, hj, hjle, hK,
    hV, fun K' V' hpre => hd.gone hshape hx hpar hp hpre⟩
  rw [hshape'.inTree_iff, hd.mem]
  exact fun hin => hin.2 hx

theorem Shape.maps_cut {s : Skeleton} (h : Shape pageSize s nodes) (hx : x ∈ nodes)
    (hne : x ≠ s.rootNode) (hpar : s.parent x = some p) (hp : RootPath s (s.key x).ns p Kp Vp)
    (hd : pageSize ∣ d) :
    Maps pageSize s (s.key x).ns (Kp ++ (s.key x).units.take d) (Vp ++ (s.value x).take d) := by
  obtain ⟨hmem, hKp, hpath⟩ := hp.path h
  obtain ⟨ck, hck⟩ := h.childKey_ok hx hne
  have hlook := (h.lookup p hmem ck x).mpr ⟨hx, hne, hpar, hck⟩
  refine ⟨x, _, _, Kp.length + d, .child hp hlook rfl, ?_, ?_, ?_⟩
  · have hdvd := h.wf.dvd_path hpath
    rw [length_stored hKp] at hdvd
    exact dvd_add hdvd hd
  · rw [take_length_add_append]
  · rw [hKp, take_length_add_append]

theorem DeleteGuard.maps {ck : PyVal}
    (g : DeleteGuard cfg.pageSize c.tree nodes x p ck (stored (c.tree.key x).ns Kp Vp))
    (h : Shape cfg.pageSize c.tree.toSkeleton nodes) (hKp : Kp.length = Vp.length)
    (hf : HashFns H B) (ns : Namespace) (K : List PyVal) (V : List Int) : Maps cfg.pageSize
      (c.deleted cfg hf x p ck (stored (c.tree.key x).ns Kp Vp)).tree.toSkeleton ns K V ↔
      Maps cfg.pageSize c.tree.toSkeleton ns K V ∧
        ¬ (ns = (c.tree.key x).ns ∧ ∃ k, 0 < k ∧ k ≤ (c.tree.key x).len ∧
          K = Kp ++ (c.tree.key x).units.take k ∧ V = Vp ++ (c.tree.value x).take k) := by
  have hshape' : Shape cfg.pageSize
      (c.deleted cfg hf x p ck (stored (c.tree.key x).ns Kp Vp)).tree.toSkeleton
      (nodes.erase x) := (Deletes.delete .refl g).shape h
  rw [hshape'.maps_iff, h.maps_iff, g.entry h, and_assoc]
  refine and_congr_right fun hlen => and_congr_right fun _ => not_congr ?_
  exact h.endsIn_iff g.child.mem hKp hlen

end Evict

section Refinement

variable [DecidableEq B]

/-- In every reachable state the tree is a finite map on which the operations of
the cache are lookup of the longest prefix, extension and removal of suffixes. -/
theorem radix_cache_refines_prefix_map (hr : Sys.Reach cfg hf s) :
    (∀ ns K V V', Maps cfg.pageSize s.cache.tree.toSkeleton ns K V →
      Maps cfg.pageSize s.cache.tree.toSkeleton ns K V' → V = V') ∧
    (∀ n, InTree s.cache.tree.toSkeleton n →
      ∃ K V, RootPath s.cache.tree.toSkeleton (s.cache.tree.key n).ns n K V) ∧
    (∀ key, MatchRefines cfg s.cache key) ∧
    (∀ key value priority chunked, cfg.disable = false → ValueFits cfg key value →
      InsertRefines cfg hf s.cache key value priority chunked) ∧
    ∀ tie numTokens, EvictRefines cfg hf s.cache tie numTokens := by
  obtain ⟨nodes, h⟩ := hr.inv
  refine ⟨fun _ _ _ _ hV hV' => h.inv.shape.maps_unique hV hV', ?_, h.matchRefines,
    fun key value priority chunked hen hfit => h.insertRefines hen key value priority chunked hfit,
    h.evictRefines⟩
  intro n hn
  obtain ⟨l, hl⟩ := h.inv.shape.wf.path_exists (h.inv.shape.inTree_iff.mp hn)
  obtain ⟨K, V, hp, -⟩ := h.inv.shape.rootPath hl fun _ => rfl
  exact ⟨K, V, hp⟩

theorem radix_cache_refines_prefix_map_small :
    (∀ key, MatchRefines Config.small Sys.filled.cache key) ∧
      InsertRefines Config.small HashFns.unit Sys.filled.cache
        (.new [1, 3] none false none none) (some [11, 13]) 0 false := by
  have h := radix_cache_refines_prefix_map Sys.filled_reach
  exact ⟨h.2.2.1, h.2.2.2.1 _ _ 0 false rfl (by intro v hv; cases hv; decide)⟩

end Refinement

end SparkInfer.Radix
