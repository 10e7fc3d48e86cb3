import BoundaryTag.Proofs.Soundness

/-!
# Separation — what belongs to live pointers

Live pointers are the allocated blocks of the chain, no more and no fewer, and the payload of each
of them is its own.

* `Survey.Reserves` are the bytes that the heap needs for itself.
* `Client.Housed` says where a payload lies: inside the heap, apart from other payloads and from
  reserved bytes.
* `Client.Reaches.separated`: this is so in every state that a client reaches.
* `Client.Reaches.undisturbed`: calls leave the payloads alone that they are not about.
-/

namespace BoundaryTag

open Extent

def Chain.usedBlocks (c : Chain) : List Nat :=
  (c.blocks.filter fun b => b.tag.allocated).map ChainBlock.addr

/-- The bytes of headers, footers, links and sentinels, as an audit shows them. -/
inductive Survey.Reserves (s : Survey) (i : Nat) : Prop where
  | prologueHeader (inside : s.prologue - 4 ≤ i ∧ i < s.prologue)
  | prologueFooter (inside : s.prologue + prologueSize - 8 ≤ i ∧ i < s.prologue + prologueSize - 4)
  | epilogue (inside : s.top - 4 ≤ i ∧ i < s.top)
  | header (b : ChainBlock) (block : b ∈ s.chain.blocks) (inside : b.addr - 4 ≤ i ∧ i < b.addr)
  | footer (b : ChainBlock) (block : b ∈ s.chain.blocks) (free : b.isFree = true)
      (inside : b.addr + b.tag.size - 8 ≤ i ∧ i < b.addr + b.tag.size - 4)
  | sentinel (t : Thread) (thread : t ∈ s.threads) (inside : t.sentinel ≤ i ∧ i < t.sentinel + 8)
  | links (t : Thread) (thread : t ∈ s.threads) (n : ThreadNode) (node : n ∈ t.nodes)
      (inside : n.addr ≤ i ∧ i < n.addr + 8)

theorem Region.Chained.usedBlocks_eq {r : Region} {bp : Nat} {p : Bool} {es : List Extent}
    {stop : ChainEnd} (h : r.Chained bp p es) :
    Chain.usedBlocks ⟨r.blocksAt bp es, stop⟩ = (inUse bp es).map Prod.fst := by
  have hused : ∀ q ∈ located bp es,
      ((fun b : ChainBlock => b.tag.allocated) ∘ fun q : Nat × Extent => r.blockAt q.1) q
        = q.2.allocated := by
    rintro ⟨x, e⟩ hx
    rcases h.tagged.at hx with ⟨q, ht⟩
    rw [Function.comp_apply, tag_blockAt]
    exact ht.allocated
  have haddr : (ChainBlock.addr ∘ fun q : Nat × Extent => r.blockAt q.1) = Prod.fst := by
    funext q
    rw [Function.comp_apply, addr_blockAt]
  rw [Chain.usedBlocks, blocksAt, List.filter_map, List.map_map, haddr, List.filter_congr hused,
    map_fst_inUse]

namespace Heap

variable {h : Heap} {es : List Extent} {lists : Nat → List Nat} {a n i : Nat}

theorem usedBlocks_surveyOf (hs : h.region.Settled h.lo es lists) :
    (h.surveyOf es lists).chain.usedBlocks = (h.used es).map Prod.fst :=
  hs.drawn.chained.usedBlocks_eq

/-- Reserved bytes are not in the payload of a block in use. -/
theorem not_reserves (hs : h.region.Settled h.lo es lists) (ha : (a, n) ∈ h.used es) (hi : a ≤ i)
    (hi' : i + 4 < a + n) : ¬(h.surveyOf es lists).Reserves i := by
  have hpay : IsPayload (h.lo + frameSize) es i := ⟨a, n, ha, hi, hi'⟩
  have hloc := hs.drawn.located (mem_inUse.1 ha)
  have hlow : h.lo + 128 ≤ a := hloc.1
  have hnode : ∀ b ∈ h.region.blocksAt (h.lo + frameSize) es,
      ∃ x e, (x, e) ∈ located (h.lo + frameSize) es ∧ b = h.region.blockAt x
        ∧ (h.region.tagAt x).size = e.size ∧ (h.region.tagAt x).allocated = e.allocated := by
    intro b hb
    rcases List.mem_map.1 hb with ⟨⟨x, e⟩, hx, rfl⟩
    rcases hs.drawn.tagsAt hx with ⟨p, ht⟩
    exact ⟨x, e, hx, rfl, ht.size, ht.allocated⟩
  intro hres
  -- one case for each kind of reserved bytes
  cases hres with
  | prologueHeader inside =>
      have hp : i < h.lo + 8 := inside.2
      omega
  | prologueFooter inside =>
      have hp : i < h.lo + 8 + 120 - 4 := inside.2
      omega
  | epilogue inside =>
      have hp : h.region.size - 4 ≤ i := inside.1
      have hb : a + n ≤ h.region.size := hloc.2.1
      omega
  | header b block inside =>
      rcases hnode b block with ⟨x, e, hx, rfl, -, -⟩
      have hb := hs.drawn.located hx
      refine not_isPayload_of_isTag hs.large ⟨x, e, hx, .inl ?_⟩ hpay
      rw [Region.addr_blockAt] at inside
      omega
  | footer b block free inside =>
      rcases hnode b block with ⟨x, e, hx, rfl, hsize, halloc⟩
      have hfree : e.allocated = false := by
        rw [Region.isFree_blockAt, halloc] at free
        simpa using free
      have hlarge : 16 ≤ e.size := hs.large.size hx
      rw [Region.addr_blockAt, Region.tag_blockAt, hsize] at inside
      exact not_isPayload_of_isTag hs.large ⟨x, e, hx, .inr ⟨hfree, by omega, by omega⟩⟩ hpay
  | sentinel t thread inside =>
      rcases List.mem_map.1 thread with ⟨k, hk, rfl⟩
      have hk : k < 14 := List.mem_range.1 hk
      have hp : i < h.lo + 8 + k * 8 + 8 := inside.2
      omega
  | links t thread m node inside =>
      rcases List.mem_map.1 thread with ⟨k, hk, rfl⟩
      rcases List.mem_map.1 node with ⟨x, hx, rfl⟩
      rcases hs.listed.located hx with ⟨m, hm, -, -⟩
      exact not_isPayload_of_isLink hs.large ⟨x, ⟨m, false⟩, hm, rfl, inside⟩ hpay

end Heap

namespace Client

variable {source : Source} {config : Config} {c : Client} {call : Call} {p : Nat}

/-- The payload of the pointer `a` has `n` bytes, enough for the `size` that it was asked for,
which lie inside the heap and are used for nothing else. -/
structure Housed (c : Client) (s : Survey) (a size n : Nat) : Prop where
  usable : c.heap.usableSize a = .ok n
  room : size ≤ n
  aligned : a % 8 = 0
  above : c.heap.lo + 128 ≤ a
  below : a + n ≤ c.heap.region.size - 4
  apart : ∀ b m, b ∈ c.pointers → b ≠ a → c.heap.usableSize b = .ok m → a + n ≤ b ∨ b + m ≤ a
  clear : ∀ i, a ≤ i → i < a + n → ¬s.Reserves i

/-- The live pointers are the allocated blocks of the chain, and each of them is well housed. -/
theorem Reaches.separated (hc : Reaches source config c) :
    ∃ s, c.heap.audit = .ok (.survey s) ∧ c.pointers.Nodup
      ∧ c.pointers.Perm s.chain.usedBlocks
      ∧ ∀ a size, (a, size) ∈ c.live → ∃ n, c.Housed s a size n := by
  rcases hc.keeps with ⟨es, hk⟩
  rcases hk.settled with ⟨lists, hs⟩
  refine ⟨c.heap.surveyOf es lists, Heap.audit_eq hs, ?_,
    Heap.usedBlocks_surveyOf hs ▸ hk.live.perm, ?_⟩
  · exact pointers_nodup hk
  · intro a size ha
    rcases hk.live.room a size ha with ⟨n, hn, hroom⟩
    rcases Heap.used_spec hs hn with ⟨habove, hbelow, h8, h16, husable, -⟩
    refine ⟨n - 4, husable, by omega, h8, habove, by omega, ?_, ?_⟩
    · intro b m hb hne hm
      rcases exists_used hk hb with ⟨k, hbk⟩
      rcases Heap.used_spec hs hbk with ⟨-, -, -, hk16, husable', -⟩
      have hmk : k - 4 = m := Except.ok.inj (husable'.symm.trans hm)
      -- two live pointers have different blocks
      have hmem : (b, k) ∈ (c.heap.used es).erase (a, n) :=
        (List.mem_erase_of_ne fun heq => hne (congrArg Prod.fst heq)).2 hbk
      have := Heap.used_apart hs (List.perm_cons_erase hn) hmem
      omega
    · exact fun i hi hi' => Heap.not_reserves hs hn hi (by omega)

/-- Two blocks, of which the first was freed and the second resized. -/
theorem separated_after_resize :
    ∃ c, Reaches (.buffer 4096) ⟨64, 64⟩ c ∧ c.live = [(128, 12), (160, 40)]
      ∧ ∃ s, c.heap.audit = .ok (.survey s) ∧ c.pointers.Nodup
        ∧ c.pointers.Perm s.chain.usedBlocks
        ∧ ∀ a size, (a, size) ∈ c.live → ∃ n, c.Housed s a size n := by
  have hlive : (runFrom (.buffer 4096) ⟨64, 64⟩ [.allocate 12, .allocate 12, .free (some 128),
      .resize (some 144) 40, .allocate 12]).map Client.live = some [(128, 12), (160, 40)] := by
    decide +kernel
  rcases Option.map_eq_some_iff.1 hlive with ⟨c, hrun, hc⟩
  have hreach := reaches_iff.2 ⟨_, hrun⟩
  exact ⟨c, hreach, hc, hreach.separated⟩

/-- A call comes through and leaves the payload of a live pointer as it is, unless it is about
this very pointer. -/
theorem Reaches.undisturbed (hc : Reaches source config c) (ha : c.Allows call)
    (hp : p ∈ c.pointers) (hne : call.target ≠ some p) :
    ∃ d answer n bytes, c.step call = .ok (d, answer) ∧ p ∈ d.pointers
      ∧ c.heap.usableSize p = .ok n ∧ c.heap.payload p = .ok bytes ∧ bytes.size = n
      ∧ d.heap.usableSize p = .ok n ∧ d.heap.payload p = .ok bytes := by
  rcases hc.keeps with ⟨es, hk⟩
  rcases step_spec hk ha with ⟨d, answer, es', hrun, hk', hspares⟩
  rcases hspares.payload_kept hk hk' hp hne with ⟨n, bytes, hkept⟩
  exact ⟨d, answer, n, bytes, hrun, hkept⟩

/-- The block after the one that is freed. -/
theorem undisturbed_by_free :
    ∃ c, Reaches (.buffer 4096) ⟨64, 64⟩ c ∧ c.live = [(144, 12), (128, 12)]
      ∧ c.Allows (.free (some 128)) ∧ 144 ∈ c.pointers
      ∧ (Call.free (some 128)).target ≠ some 144
      ∧ ∃ d answer n bytes, c.step (.free (some 128)) = .ok (d, answer) ∧ 144 ∈ d.pointers
        ∧ c.heap.usableSize 144 = .ok n ∧ c.heap.payload 144 = .ok bytes ∧ bytes.size = n
        ∧ d.heap.usableSize 144 = .ok n ∧ d.heap.payload 144 = .ok bytes := by
  have hlive : (runFrom (.buffer 4096) ⟨64, 64⟩ [.allocate 12, .allocate 12]).map Client.live
      = some [(144, 12), (128, 12)] := by
    decide +kernel
  rcases Option.map_eq_some_iff.1 hlive with ⟨c, hrun, hc⟩
  have hreach := reaches_iff.2 ⟨_, hrun⟩
  have hpointers : c.pointers = [144, 128] := by
    rw [pointers, hc]
    rfl
  have hallows : c.Allows (.free (some 128)) := by
    intro a ha
    rw [hpointers, ← Option.some.inj ha]
    decide
  have hmem : 144 ∈ c.pointers := by
    rw [hpointers]
    decide
  have hne : (Call.free (some 128)).target ≠ some 144 := by
    decide
  exact ⟨c, hreach, hc, hallows, hmem, hne, hreach.undisturbed hallows hmem hne⟩

end Client

end BoundaryTag
