import SparkInfer.Radix.PrefixMap

/-!
# The event stream describes the tree

A consumer replays the events: stored blocks are added, removed ones deleted.
After every call of a run the replayed set is the set of block hashes of the
pages in the tree, and every stored block links to a block that is there.
Merging adjacent events in the queue is invisible to the consumer.
-/

namespace SparkInfer.Radix

open Lib Alloc List Finset RadixKey Recorder Chain

variable {H B : Type} {cfg : Config} {hf : HashFns H B}
variable {e : KVEvent B} {lp l : List (Atom × Int)} {b : B} {nodes nodes' : Finset NodeId}
variable {ns : Namespace} {V : List Int} {w key : RadixKey} {pageSize : Nat}

/-! ## Blocks of the tree -/

/-- Hashes of different pages, parents or salts differ. -/
structure HashFns.CollisionFree (hf : HashFns H B) : Prop where
  page_inj : ∀ p us p' us', hf.page p us = hf.page p' us' → p = p' ∧ us = us'
  salt_inj : Function.Injective hf.salt
  page_ne_salt : ∀ p us salt, hf.page p us ≠ hf.salt salt
  toInt64_inj : Function.Injective hf.toInt64

/-- The published hash of the last page of `K`, chained from the seed of its salt. -/
def blockHash (hf : HashFns H B) (pageSize : Nat) (salt : Option String) (K : List PyVal) :
    Option B :=
  (tip hf.page pageSize (hf.seed salt) K).map hf.toInt64

/-- `b` is the hash of a page in the tree. -/
def IsBlock (hf : HashFns H B) (pageSize : Nat) (s : Skeleton) (b : B) : Prop :=
  ∃ ns K V, Maps pageSize s ns K V ∧ K ≠ [] ∧ blockHash hf pageSize ns.2 K = some b

section Blocks

variable {salt salt' : Option String} {K K' : List PyVal}

theorem HashFns.CollisionFree.seed_ne (hcf : hf.CollisionFree)
    (p : Option H) (us : List PyVal) : hf.seed salt ≠ some (hf.page p us) := by
  cases salt with
  | none => simp [seed]
  | some salt =>
    simp only [seed, Option.map_some, ne_eq, Option.some.injEq]
    exact fun h => hcf.page_ne_salt p us salt h.symm

/-- A block hash determines the salt and the whole path of its page. -/
theorem HashFns.CollisionFree.blockHash_inj (hcf : hf.CollisionFree) (hps : 0 < pageSize)
    (hK : pageSize ∣ K.length) (hK' : pageSize ∣ K'.length)
    (h : blockHash hf pageSize salt K = blockHash hf pageSize salt' K') :
    salt = salt' ∧ K = K' := by
  have htip := Option.map_injective hcf.toInt64_inj h
  obtain ⟨hseed, hKK⟩ := tip_inj hps hcf.page_inj (hcf.seed_ne) (hcf.seed_ne)
    hK hK' htip
  exact ⟨Option.map_injective hcf.salt_inj hseed, hKK⟩

/-- The hashes of `us` below a path: one for every page boundary. -/
theorem mem_pagesAfter (hps : 0 < pageSize) {us : List PyVal} (hlp : pageSize ∣ lp.length)
    (hus : pageSize ∣ us.length) : b ∈ (hf.pagesAfter pageSize salt lp us).map hf.toInt64 ↔
      ∃ d, pageSize ∣ d ∧ 0 < d ∧ d ≤ us.length ∧
        blockHash hf pageSize salt (unitsOf lp ++ us.take d) = some b := by
  have htip : ∀ d, tip hf.page pageSize (hf.seed salt) (unitsOf lp ++ us.take d) =
      tip hf.page pageSize (tip hf.page pageSize (hf.seed salt) (unitsOf lp))
        (us.take d) := fun d => tip_append hps (by simpa using hlp)
  simp only [List.mem_map, HashFns.pagesAfter, mem_chain_iff hps hus, blockHash, htip,
    Option.map_eq_some_iff]
  constructor
  · rintro ⟨h, ⟨d, hd, hpos, hle, heq⟩, rfl⟩
    exact ⟨d, hd, hpos, hle, h, heq, rfl⟩
  · rintro ⟨d, hd, hpos, hle, h, heq, rfl⟩
    exact ⟨h, ⟨d, hd, hpos, hle, heq⟩, rfl⟩

theorem Shape.maps_dvd {s : Skeleton} (h : Shape pageSize s nodes) (hm : Maps pageSize s ns K V) :
    pageSize ∣ K.length := by
  obtain ⟨hlen, he⟩ := h.maps_iff.mp hm
  rw [← length_stored hlen]
  exact h.wf.entry_dvd he

theorem unitsOf_stored (hlen : K.length = V.length) : unitsOf (stored ns K V) = K := by
  have hkeys : Trie.keys (stored ns K V) = K.map fun u => (ns, u) := keys_stored hlen
  have hunits := congrArg (List.map Prod.snd) hkeys
  simpa [unitsOf, Function.comp_def] using hunits

theorem mem_leaf_blocks (hl : cfg.pageSize ∣ l.length) (hkey : cfg.pageSize ∣ key.len)
    (hunits : unitsOf l = w.units.take l.length) (hrest : key.units = w.units.drop l.length)
    (hlen : l.length < w.len) :
    b ∈ (hf.pagesAfter cfg.pageSize w.cacheSalt l key.units).map hf.toInt64 ↔
      ∃ d, cfg.pageSize ∣ d ∧ l.length < d ∧ d ≤ w.len ∧
        blockHash hf cfg.pageSize w.cacheSalt (w.units.take d) = some b := by
  have hkeylen : key.units.length = w.len - l.length := by
    rw [hrest, length_drop, length_units]
  have hcut : ∀ d, unitsOf l ++ key.units.take d = w.units.take (l.length + d) := by
    intro d
    rw [hunits, hrest, take_add]
  rw [mem_pagesAfter cfg.pageSize_pos hl (by rwa [length_units])]
  simp only [hcut]
  constructor
  · rintro ⟨d, hd, hpos, hle, heq⟩
    exact ⟨l.length + d, dvd_add hl hd, by omega, by omega, heq⟩
  · rintro ⟨d, hd, hlt, hle, heq⟩
    refine ⟨d - l.length, Nat.dvd_sub hd hl, by omega, by omega, ?_⟩
    rwa [Nat.add_sub_cancel' hlt.le]

theorem Splits.queue {c c' : RadixCache H B} (hs : Splits cfg c nodes c' nodes') :
    c'.kvEvents.queue = c.kvEvents.queue := by
  induction hs with
  | refl => rfl
  | stats _ _ ih | split _ _ ih => exact ih

end Blocks

/-! ## Replay -/

variable [DecidableEq B]

def applyEvent (live : Finset B) : KVEvent B → Finset B
  | .blockStored e => live ∪ e.blockHashes.toFinset
  | .blockRemoved hs _ => live \ hs.toFinset
  | .allBlocksCleared => ∅

def replay (events : List (KVEvent B)) : Finset B := events.foldl applyEvent ∅

/-- The parent of a stored block is absent or already there. -/
def Linked (live : Finset B) : KVEvent B → Prop
  | .blockStored e => ∀ p, e.parentBlockHash = some p → p ∈ live
  | _ => True

def AllLinked (events : List (KVEvent B)) : Prop :=
  ∀ earlier e later, events = earlier ++ e :: later → Linked (replay earlier) e

/-- Blocks stored in a row: each is the parent of the next. -/
def chainLinks : Option B → List B → List (B × Option B)
  | _, [] => []
  | parent, b :: bs => (b, parent) :: chainLinks (some b) bs

def links : KVEvent B → List (B × Option B)
  | .blockStored e => chainLinks e.parentBlockHash e.blockHashes
  | _ => []

theorem replay_snoc (events : List (KVEvent B)) :
    replay (events ++ [e]) = applyEvent (replay events) e := by
  simp [replay]

theorem allLinked_nil : AllLinked ([] : List (KVEvent B)) := by
  intro earlier e later h
  simp at h

theorem allLinked_snoc {events : List (KVEvent B)} :
    AllLinked (events ++ [e]) ↔ AllLinked events ∧ Linked (replay events) e := by
  constructor
  · intro h
    refine ⟨fun earlier e' later heq => ?_, h events e [] rfl⟩
    exact h earlier e' (later ++ [e]) (by rw [heq]; simp)
  rintro ⟨h, he⟩ earlier e' later heq
  rcases eq_nil_or_concat later with rfl | ⟨later', x, rfl⟩
  · obtain ⟨rfl, hx⟩ := append_inj' heq rfl
    rwa [← singleton_inj.mp hx]
  · rw [concat_eq_append, ← cons_append, ← append_assoc] at heq
    exact h earlier e' later' (append_inj' heq rfl).1

/-! ## Coalescing -/

omit [DecidableEq B] in
theorem chainLinks_append (parent : Option B) (xs ys : List B) : chainLinks parent (xs ++ ys) =
      chainLinks parent xs ++ chainLinks (xs.getLast?.or parent) ys := by
  induction xs generalizing parent with
  | nil => rfl
  | cons x xs ih =>
    rw [cons_append, chainLinks, chainLinks, ih, getLast?_cons]
    cases xs.getLast? <;> rfl

theorem coalesce_spec {tail merged : KVEvent B} (h : coalesce tail e = some merged) :
    (∀ live, applyEvent live merged = applyEvent (applyEvent live tail) e) ∧
      (∀ live, Linked live tail → Linked live merged) ∧ links merged = links tail ++ links e := by
  cases tail with
  | allBlocksCleared => simp [coalesce] at h
  | blockRemoved hs m =>
    cases e with
    | allBlocksCleared | blockStored e => simp [coalesce] at h
    | blockRemoved hs' m' =>
      simp only [coalesce] at h
      split_ifs at h
      cases h
      refine ⟨fun live => ?_, fun _ hl => hl, rfl⟩
      ext b
      simp only [applyEvent, toFinset_append, mem_sdiff, mem_union, not_or, and_assoc]
  | blockStored tail =>
    cases e with
    | allBlocksCleared | blockRemoved hs m => simp [coalesce] at h
    | blockStored e =>
      simp only [coalesce] at h
      split_ifs at h with hcond
      cases h
      obtain ⟨-, -, -, -, hne, hparent⟩ := hcond
      refine ⟨fun live => ?_, fun _ hl => hl, ?_⟩
      · simp only [applyEvent, toFinset_append, union_assoc]
      · -- the parent of the new event is the last block of the tail
        obtain ⟨b, hb⟩ := Option.isSome_iff_exists.mp (List.getLast?_isSome.mpr hne)
        simp only [links, chainLinks_append, hparent, hb, Option.some_or]

theorem enqueue_stream (seen queue : List (KVEvent B)) :
    replay (seen ++ enqueue queue e) = applyEvent (replay (seen ++ queue)) e ∧
      (seen ++ enqueue queue e).flatMap links = (seen ++ queue ++ [e]).flatMap links ∧
      (AllLinked (seen ++ queue) → Linked (replay (seen ++ queue)) e →
        AllLinked (seen ++ enqueue queue e)) := by
  have happend : replay (seen ++ (queue ++ [e])) = applyEvent (replay (seen ++ queue)) e ∧
      (seen ++ (queue ++ [e])).flatMap links = (seen ++ queue ++ [e]).flatMap links ∧
      (AllLinked (seen ++ queue) → Linked (replay (seen ++ queue)) e →
        AllLinked (seen ++ (queue ++ [e]))) := by
    rw [← append_assoc]
    exact ⟨replay_snoc _, rfl, fun h he => allLinked_snoc.mpr ⟨h, he⟩⟩
  unfold enqueue
  rcases eq_nil_or_concat queue with rfl | ⟨before, tail, rfl⟩
  · exact happend
  rw [concat_eq_append] at happend ⊢
  simp only [List.getLast?_append, List.getLast?_singleton, Option.some_or]
  cases hmerge : coalesce tail e with
  | none => exact happend
  | some merged =>
    obtain ⟨happly, hlinked, hlinks⟩ := coalesce_spec hmerge
    simp only [dropLast_concat]
    rw [← append_assoc, ← append_assoc, replay_snoc, replay_snoc, happly]
    refine ⟨rfl, ?_, ?_⟩
    · simp [hlinks]
    · rw [allLinked_snoc, allLinked_snoc]
      exact fun h _ => ⟨h.1, hlinked _ h.2⟩

/-- Events that each link to what is there or to the one before. -/
def LinkedFrom : Finset B → List (KVEvent B) → Prop
  | _, [] => True
  | live, e :: es => Linked live e ∧ LinkedFrom (applyEvent live e) es

theorem enqueue_all_stream (seen : List (KVEvent B)) (es : List (KVEvent B)) :
    ∀ queue, replay (seen ++ es.foldl enqueue queue) =
        es.foldl applyEvent (replay (seen ++ queue)) ∧
      (AllLinked (seen ++ queue) → LinkedFrom (replay (seen ++ queue)) es →
        AllLinked (seen ++ es.foldl enqueue queue)) := by
  induction es with
  | nil => exact fun queue => ⟨rfl, fun h _ => h⟩
  | cons e es ih =>
    intro queue
    obtain ⟨hreplay, -, hlinked⟩ := enqueue_stream seen queue
    obtain ⟨ihreplay, ihlinked⟩ := ih (enqueue queue e)
    rw [hreplay] at ihreplay ihlinked
    exact ⟨ihreplay, fun h hes => ihlinked (hlinked h hes.1) hes.2⟩

section Pages

variable {medium : StorageMedium}

theorem pageEvents_replay (hashes : List H) :
    ∀ (units : List PyVal) (parent : Option B) (live : Finset B),
      (pageEvents hf pageSize key medium hashes units parent).foldl applyEvent live =
        live ∪ (hashes.map hf.toInt64).toFinset := by
  induction hashes with
  | nil =>
    simp [pageEvents]
  | cons h hs ih =>
    intro units parent live
    rw [pageEvents, foldl_cons, ih]
    simp only [pageEvent, applyEvent]
    simp

theorem pageEvents_linked (hashes : List H) :
    ∀ (units : List PyVal) (parent : Option B) (live : Finset B),
      (∀ p, parent = some p → p ∈ live) →
      LinkedFrom live (pageEvents hf pageSize key medium hashes units parent) := by
  induction hashes with
  | nil => exact fun _ _ _ _ => trivial
  | cons h hs ih =>
    intro units parent live hparent
    refine ⟨hparent, ih _ _ _ ?_⟩
    simp [pageEvent, applyEvent]

end Pages

/-! ## One edit -/

/-- What the consumer knows agrees with the tree. -/
structure Streamed (cfg : Config) (hf : HashFns H B) (c : RadixCache H B)
    (taken : List (KVEvent B)) : Prop where
  no_extra : ∀ ns K V, Maps cfg.pageSize c.tree.toSkeleton ns K V → K ≠ [] → ns.1 = none
  replay : ∀ b, b ∈ replay (taken ++ c.kvEvents.queue) ↔ IsBlock hf cfg.pageSize c.tree.toSkeleton b
  linked : AllLinked (taken ++ c.kvEvents.queue)

section Edits

variable {c c' : RadixCache H B} {taken : List (KVEvent B)}

theorem Streamed.congr (h : Streamed cfg hf c taken)
    (hmaps : ∀ ns K V, Maps cfg.pageSize c'.tree.toSkeleton ns K V ↔
      Maps cfg.pageSize c.tree.toSkeleton ns K V)
    (hqueue : c'.kvEvents.queue = c.kvEvents.queue) : Streamed cfg hf c' taken := by
  refine ⟨fun ns K V hm => h.no_extra ns K V ((hmaps ns K V).mp hm), fun b => ?_, ?_⟩
  · rw [hqueue, h.replay b]
    unfold IsBlock
    simp only [hmaps]
  · rw [hqueue]
    exact h.linked

theorem Streamed.splits (h : Streamed cfg hf c taken) (hs : Splits cfg c nodes c' nodes')
    (hshape : Shape cfg.pageSize c.tree.toSkeleton nodes) : Streamed cfg hf c' taken :=
  h.congr (fun _ _ _ => hs.maps hshape) hs.queue

theorem Streamed.inserted {value : List Int} {n last : NodeId} (h : Streamed cfg hf c taken)
    (hen : cfg.enableKvCacheEvents = true) (hextra : w.extraKey = none)
    (hshape : Shape cfg.pageSize c.tree.toSkeleton nodes)
    (hshape' : Shape cfg.pageSize c'.tree.toSkeleton nodes') (hval : value.length = w.len)
    (hloc : (c.tree.trie nodes).Located cfg.pageSize w.tagged n l)
    (hend : InsertEnd cfg hf c nodes w.tagged value n l c' nodes' last) :
    Streamed cfg hf c' taken := by
  have hmaps := hend.maps hshape hshape' hval hloc
  cases hend with
  | found => exact h
  | @added _ key ck hlen hkey guard hadd =>
    obtain ⟨hself, hlong⟩ := hshape.longestMatch hloc
    rw [length_tagged] at hlen
    have hunits : unitsOf l = w.units.take l.length := by
      conv_lhs => rw [hself]
      exact unitsOf_stored (by simp; omega)
    obtain ⟨hns, hrest⟩ := of_tagged_drop hkey guard.pos
    have hsalt : key.cacheSalt = w.cacheSalt := congrArg Prod.snd hns
    obtain ⟨parent, hparent, hqueue⟩ : ∃ parent, (∀ p, parent = some p → n ≠ c.tree.rootNode ∧
          blockHash hf cfg.pageSize w.cacheSalt (w.units.take l.length) = some p) ∧
        c'.kvEvents.queue = (pageEvents hf cfg.pageSize key .gpu
          (hf.pagesAfter cfg.pageSize w.cacheSalt l key.units) key.units parent).foldl enqueue
          c.kvEvents.queue := by
      refine ⟨if n = c.tree.rootNode then none else
        (tip hf.page cfg.pageSize (hf.seed key.cacheSalt) (unitsOf l)).map hf.toInt64,
        ?_, ?_⟩
      · intro p hp
        split_ifs at hp with hroot
        rw [hsalt, hunits] at hp
        exact ⟨hroot, hp⟩
      · rw [hadd.kvEvents, if_pos hen, ← hsalt]
        rfl
    obtain ⟨hreplay, hlinked⟩ := enqueue_all_stream taken (pageEvents hf cfg.pageSize key .gpu
      (hf.pagesAfter cfg.pageSize w.cacheSalt l key.units) key.units parent) c.kvEvents.queue
    refine ⟨?_, ?_, ?_⟩
    · intro ns K V hm hne
      rcases (hmaps ns K V).mp hm with hm | ⟨rfl, -⟩
      · exact h.no_extra ns K V hm hne
      · exact hextra
    · intro b
      rw [hqueue, hreplay, pageEvents_replay, mem_union, mem_toFinset, h.replay b,
        mem_leaf_blocks (hshape.wf.dvd_path hloc.path) guard.dvd hunits hrest hlen]
      constructor
      · rintro (⟨ns, K, V, hm, hne, hb⟩ | ⟨d, hd, hlt, hle, hb⟩)
        · exact ⟨ns, K, V, (hmaps ns K V).mpr (.inl hm), hne, hb⟩
        refine ⟨w.ns, _, _, (hmaps _ _ _).mpr (.inr ⟨rfl, d, hd, hlt, hle, rfl, rfl⟩), ?_, hb⟩
        refine ne_nil_of_length_pos ?_
        rw [length_take, length_units]
        omega
      · rintro ⟨ns, K, V, hm, hne, hb⟩
        rcases (hmaps ns K V).mp hm with hm | ⟨rfl, d, hd, hlt, hle, rfl, rfl⟩
        · exact .inl ⟨ns, K, V, hm, hne, hb⟩
        · exact .inr ⟨d, hd, hlt, hle, hb⟩
    · rw [hqueue]
      refine hlinked h.linked (pageEvents_linked _ _ _ _ ?_)
      -- the parent is the last page of the path found
      intro p hp
      obtain ⟨hroot, hb⟩ := hparent p hp
      rw [h.replay p]
      have hm := hlong.maps
      rw [length_map] at hm
      refine ⟨w.ns, _, _, hm, ?_, hb⟩
      obtain ⟨q, lq, hmem, -, -, hl⟩ := hloc.path.parent hroot
      have hne := hshape.wf.ne_nil n hmem hroot
      refine ne_nil_of_length_pos ?_
      rw [length_take, length_units]
      have hpos : 0 < l.length := by
        rw [hl, length_append]
        have := length_pos_of_ne_nil hne
        omega
      omega

theorem Streamed.deleted {x p : NodeId} {ck : PyVal} (h : Streamed cfg hf c taken)
    (hcf : hf.CollisionFree) (hen : cfg.enableKvCacheEvents = true)
    (hshape : Shape cfg.pageSize c.tree.toSkeleton nodes)
    (g : DeleteGuard cfg.pageSize c.tree nodes x p ck lp) :
    Streamed cfg hf (c.deleted cfg hf x p ck lp) taken := by
  have hmem := g.child.mem
  have hne := g.child.ne_root
  obtain ⟨Kp, Vp, hp, rfl⟩ := hshape.rootPath g.path (hshape.same_ns x hmem hne p g.child.parent)
  obtain ⟨-, hKp, hpath⟩ := hp.path hshape
  have hmaps := g.maps hshape hKp hf
  have hKdvd : cfg.pageSize ∣ Kp.length := by
    rw [← length_stored hKp]
    exact hshape.wf.dvd_path hpath
  have hxdvd : cfg.pageSize ∣ (c.tree.key x).units.length := by
    rw [length_units]
    exact hshape.dvd_len hmem hne
  have hblocks : ∀ b, b ∈ (hf.pagesAfter cfg.pageSize (c.tree.key x).cacheSalt
      (stored (c.tree.key x).ns Kp Vp) (c.tree.key x).units).map hf.toInt64 ↔
      ∃ d, cfg.pageSize ∣ d ∧ 0 < d ∧ d ≤ (c.tree.key x).len ∧
        blockHash hf cfg.pageSize (c.tree.key x).ns.2 (Kp ++ (c.tree.key x).units.take d) =
          some b := by
    intro b
    rw [mem_pagesAfter cfg.pageSize_pos (by rwa [length_stored hKp]) hxdvd, unitsOf_stored hKp,
      length_units]
    rfl
  have hqueue : (c.deleted cfg hf x p ck (stored (c.tree.key x).ns Kp Vp)).kvEvents.queue =
      enqueue c.kvEvents.queue (.blockRemoved ((hf.pagesAfter cfg.pageSize
        (c.tree.key x).cacheSalt (stored (c.tree.key x).ns Kp Vp)
        (c.tree.key x).units).map hf.toInt64) .gpu) := by
    simp only [RadixCache.deleted, hen]
    rfl
  obtain ⟨hreplay, -, hlinked⟩ := enqueue_stream taken c.kvEvents.queue
  refine ⟨?_, ?_, ?_⟩
  · intro ns K V hm
    exact h.no_extra ns K V ((hmaps ns K V).mp hm).1
  · intro b
    rw [hqueue, hreplay, applyEvent, mem_sdiff, mem_toFinset, h.replay b, hblocks b]
    constructor
    · rintro ⟨⟨ns, K, V, hm, hK, hb⟩, hno⟩
      refine ⟨ns, K, V, (hmaps ns K V).mpr ⟨hm, ?_⟩, hK, hb⟩
      rintro ⟨rfl, k, hk, hle, rfl, -⟩
      have hdvd := hshape.maps_dvd hm
      rw [length_append, length_take, length_units, min_eq_left hle,
        Nat.dvd_add_right hKdvd] at hdvd
      exact hno ⟨k, hdvd, hk, hle, hb⟩
    rintro ⟨ns, K, V, hm, hK, hb⟩
    obtain ⟨hm, hends⟩ := (hmaps ns K V).mp hm
    refine ⟨⟨ns, K, V, hm, hK, hb⟩, ?_⟩
    -- another page with that hash would be the same page
    rintro ⟨d, hd, hpos, hle, hb'⟩
    have hcut := hshape.maps_cut hmem hne g.child.parent hp hd
    have hcutne : Kp ++ (c.tree.key x).units.take d ≠ [] := by
      refine ne_nil_of_length_pos ?_
      rw [length_append, length_take, length_units]
      omega
    obtain ⟨hsalt, rfl⟩ := hcf.blockHash_inj cfg.pageSize_pos (hshape.maps_dvd hm)
      (hshape.maps_dvd hcut) (hb.trans hb'.symm)
    have hns : ns = (c.tree.key x).ns :=
      Prod.ext ((h.no_extra _ _ _ hm hK).trans (h.no_extra _ _ _ hcut hcutne).symm) hsalt
    subst hns
    exact hends ⟨rfl, d, hpos, hle, rfl, hshape.maps_unique hm hcut⟩
  · rw [hqueue]
    exact hlinked h.linked trivial

theorem Streamed.deletes {xs : List NodeId} (hd : Deletes cfg hf c nodes c' nodes' xs)
    (h : Streamed cfg hf c taken) (hcf : hf.CollisionFree) (hen : cfg.enableKvCacheEvents = true)
    (hshape : Shape cfg.pageSize c.tree.toSkeleton nodes) : Streamed cfg hf c' taken := by
  induction hd with
  | refl => exact h
  | delete hd guard ih => exact ih.deleted hcf hen (hd.shape hshape) guard

theorem Streamed.reset (hen : cfg.enableKvCacheEvents = true) (c : RadixCache H B)
    (hlinked : AllLinked (taken ++ c.kvEvents.queue)) : Streamed cfg hf (c.reset cfg) taken := by
  have hinv : Inv cfg hf (c.reset cfg) _ [] := reset_spec c
  have hqueue : (c.reset cfg).kvEvents.queue = enqueue c.kvEvents.queue .allBlocksCleared := by
    simp [RadixCache.reset, recordAllCleared, hen, newNode]
  obtain ⟨hreplay, -, hlinked'⟩ := enqueue_stream taken c.kvEvents.queue
  refine ⟨?_, ?_, ?_⟩
  · intro ns K V hm hK
    exact absurd ((hinv.shape.maps_root rfl).mp hm).1 hK
  · intro b
    rw [hqueue, hreplay]
    constructor
    · intro hb
      simp [applyEvent] at hb
    · rintro ⟨ns, K, V, hm, hK, -⟩
      exact absurd ((hinv.shape.maps_root rfl).mp hm).1 hK
  · rw [hqueue]
    exact hlinked' hlinked trivial

end Edits

/-! ## Whole runs -/

def Op.NoExtraKey : Op → Prop
  | .insert key _ _ _ => key.extraKey = none
  | _ => True

/-- The events handed out so far, and those that `take` would hand out now. -/
def Sys.events (cfg : Config) (s : Sys H B) : List (KVEvent B) :=
  s.taken ++ (s.cache.kvEvents.take cfg.enableKvCacheEvents).1

theorem StepEdit.streamed (hcf : hf.CollisionFree) (hen : cfg.enableKvCacheEvents = true)
    {s s' : Sys H B} {op : Op} (hinv : SysInv cfg hf s nodes) (legal : s.Legal cfg op)
    (hop : op.NoExtraKey) (h : Streamed cfg hf s.cache s.taken)
    (he : StepEdit cfg hf s nodes op s' nodes') : Streamed cfg hf s'.cache s'.taken := by
  cases he with
  | noop => exact h
  | matched _ hsplits _ => exact h.splits hsplits hinv.inv.shape
  | inserted _ hsplits hloc hend =>
    have hinv₁ := hsplits.inv hinv.inv
    refine (h.splits hsplits hinv.inv.shape).inserted hen ?_ hinv₁.shape
      (hend.inv hinv₁ hloc.path).shape (length_insertValue legal) hloc hend
    rwa [show (alignedKey cfg _).extraKey = _ from congrArg Prod.fst (ns_alignedKey cfg _)]
  | locked _ hskel _ _ =>
    refine h.congr (fun ns K V => ?_) rfl
    simp only [hskel]
  | evicted _ hdel => exact h.deletes hdel hcf hen hinv.inv.shape
  | reset => exact Streamed.reset hen _ h.linked
  | taken =>
    have hstream : s.taken ++ (s.cache.kvEvents.take cfg.enableKvCacheEvents).1 ++
        (s.cache.kvEvents.take cfg.enableKvCacheEvents).2.queue =
        s.taken ++ s.cache.kvEvents.queue := by
      simp [Recorder.take, hen]
    refine ⟨h.no_extra, fun b => ?_, ?_⟩
    · rw [hstream]
      exact h.replay b
    · rw [hstream]
      exact h.linked

/-- Replaying the events of a run gives the blocks of the tree, every stored block
links to one that is there, and coalescing changes neither. -/
theorem event_stream_faithful (hcf : hf.CollisionFree) (hen : cfg.enableKvCacheEvents = true)
    {s : Sys H B} (hr : Sys.ReachBy cfg hf Op.NoExtraKey s) :
    (∀ b, b ∈ replay (s.events cfg) ↔ IsBlock hf cfg.pageSize s.cache.tree.toSkeleton b) ∧
    AllLinked (s.events cfg) ∧ ∀ (seen queue : List (KVEvent B)) (e : KVEvent B),
      replay (seen ++ enqueue queue e) = replay (seen ++ queue ++ [e]) ∧
        (seen ++ enqueue queue e).flatMap links = (seen ++ queue ++ [e]).flatMap links := by
  have hevents : s.events cfg = s.taken ++ s.cache.kvEvents.queue := by
    simp [Sys.events, Recorder.take, hen]
  obtain ⟨nodes, -, h⟩ := Sys.ReachBy.induct
    (fun counter allocator => Streamed.reset hen _ allLinked_nil)
    (fun hinv legal hop h he => he.streamed hcf hen hinv legal hop h) hr
  rw [hevents]
  refine ⟨h.replay, h.linked, fun seen queue e => ?_⟩
  obtain ⟨hreplay, hlinks, -⟩ := enqueue_stream seen queue
  exact ⟨by rw [hreplay, replay_snoc], hlinks⟩

/-! ## Hashes without collisions -/

/-- Formal digests: what was hashed. -/
inductive Digest
  | first (units : List PyVal)
  | next (prior : Digest) (units : List PyVal)
  | salt (salt : String)
  deriving DecidableEq

def HashFns.formal : HashFns Digest Digest where
  page := fun prior units =>
    match prior with
    | none => .first units
    | some d => .next d units
  salt := .salt
  toInt64 := id

theorem HashFns.formal_collisionFree : formal.CollisionFree := by
  refine ⟨?_, ?_, ?_, fun _ _ h => h⟩
  · intro p us p' us' h
    cases p <;> cases p' <;> simp_all [formal]
  · intro s s' h
    simpa [formal] using h
  · intro p us salt
    cases p <;> simp [formal]

def Config.withEvents : Config := { Config.small with enableKvCacheEvents := true }

def Sys.published : Sys Digest Digest :=
  (Sys.init .withEvents 0 (.new 8 1 false)).after .withEvents .formal (.fill (some "a"))

theorem Sys.published_reach : Sys.ReachBy .withEvents .formal Op.NoExtraKey Sys.published :=
  .step (.init 0 (.new 8 1 false)) (Op.fill_legal _ (some "a") rfl rfl) rfl rfl

theorem event_stream_faithful_published : (∀ b, b ∈ replay (Sys.published.events .withEvents) ↔
      IsBlock .formal 1 Sys.published.cache.tree.toSkeleton b) ∧
    AllLinked (Sys.published.events .withEvents) := by
  have h := event_stream_faithful HashFns.formal_collisionFree rfl Sys.published_reach
  exact ⟨h.1, h.2.1⟩

end SparkInfer.Radix
