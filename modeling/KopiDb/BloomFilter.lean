import KopiDb.Core

/-!
# Bloom filter

The filter that lets a table answer "not here" without reading a block.  Its
sizes come from the configuration, and `std::hash` is a parameter.
-/

namespace KopiDb

structure BloomFilter where
  numBits : ℕ
  numHashes : ℕ
  bits : List Bool
  stdHash : Bytes → ℕ
  numBits_pos : 0 < numBits
  length_bits : bits.length = numBits

namespace BloomFilter

/-- The constructor, with the sizes it derives from the expected number of
elements and the error rate. -/
def new (config : Config) : BloomFilter where
  numBits := config.bloomNumBits
  numHashes := config.bloomNumHashes
  bits := List.replicate config.bloomNumBits false
  stdHash := config.stdHash
  numBits_pos := config.bloomNumBits_pos
  length_bits := List.length_replicate

def hash1 (filter : BloomFilter) (key : Bytes) : ℕ := filter.stdHash key

/-- The second base hash is that of the key followed by `"salt"`. -/
def hash2 (filter : BloomFilter) (key : Bytes) : ℕ :=
  filter.stdHash (key ++ [115, 97, 108, 116])

/-- `hash`: the bit of the hash number `idx`, with 64-bit arithmetic. -/
def hash (filter : BloomFilter) (key : Bytes) (idx : ℕ) : ℕ :=
  (filter.hash1 key + idx * filter.hash2 key) % 2 ^ 64 % filter.numBits

def setBit (filter : BloomFilter) (bitIdx : ℕ) : BloomFilter :=
  { filter with
    bits := filter.bits.set bitIdx true
    length_bits := by rw [List.length_set, filter.length_bits] }

def add (filter : BloomFilter) (key : Bytes) : BloomFilter :=
  (List.range filter.numHashes).foldl
    (fun current i => current.setBit (filter.hash key i)) filter

def possiblyContains (filter : BloomFilter) (key : Bytes) : Bool :=
  (List.range filter.numHashes).all fun i =>
    filter.bits[filter.hash key i]?.getD false

theorem hash_lt (filter : BloomFilter) (key : Bytes) (idx : ℕ) :
    filter.hash key idx < filter.numBits :=
  Nat.mod_lt _ filter.numBits_pos

/-- Adding a key changes only the bits, and it clears none. -/
private theorem foldl_setBit (indices : List ℕ) (bit : ℕ → ℕ)
    (filter result : BloomFilter)
    (hresult : indices.foldl (fun current i => current.setBit (bit i)) filter = result) :
    result.numBits = filter.numBits ∧ result.numHashes = filter.numHashes ∧
      result.stdHash = filter.stdHash ∧
      (∀ i : ℕ, filter.bits[i]?.getD false → result.bits[i]?.getD false) ∧
      ∀ i ∈ indices, bit i < filter.numBits → result.bits[bit i]?.getD false := by
  induction indices generalizing filter with
  | nil => simp [← hresult]
  | cons index rest ih =>
      obtain ⟨hbits, hhashes, hhash, hmono, hset⟩ := ih (filter.setBit (bit index)) hresult
      have hstep : ∀ i : ℕ, filter.bits[i]?.getD false →
          (filter.setBit (bit index)).bits[i]?.getD false := by
        intro i hi
        rw [setBit, List.getElem?_set]
        split_ifs with heq hlen
        · rfl
        · subst heq
          rw [List.getElem?_eq_none (by omega)] at hi
          simp at hi
        · exact hi
      refine ⟨hbits, hhashes, hhash, fun i hi => hmono i (hstep i hi), ?_⟩
      intro i hmem hlt
      rcases List.mem_cons.mp hmem with rfl | hmem
      · apply hmono
        rw [setBit, List.getElem?_set_self (by rw [filter.length_bits]; exact hlt)]
        rfl
      · exact hset i hmem hlt

theorem add_sizes (filter : BloomFilter) (key : Bytes) :
    (filter.add key).numBits = filter.numBits ∧ (filter.add key).numHashes = filter.numHashes ∧
      (filter.add key).stdHash = filter.stdHash := by
  obtain ⟨hbits, hhashes, hhash, -, -⟩ :=
    foldl_setBit (List.range filter.numHashes) (filter.hash key) filter _ rfl
  exact ⟨hbits, hhashes, hhash⟩

private theorem hash_add (filter : BloomFilter) (key other : Bytes) (i : ℕ) :
    (filter.add key).hash other i = filter.hash other i := by
  obtain ⟨hbits, -, hhash⟩ := add_sizes filter key
  unfold hash hash1 hash2
  rw [hbits, hhash]

/-- A key that was added is found. -/
theorem possiblyContains_add_self (filter : BloomFilter) (key : Bytes) :
    (filter.add key).possiblyContains key := by
  obtain ⟨-, hhashes, -, -, hset⟩ :=
    foldl_setBit (List.range filter.numHashes) (filter.hash key) filter _ rfl
  rw [possiblyContains, List.all_eq_true]
  intro i hi
  rw [hash_add]
  have hrange : i ∈ List.range filter.numHashes := by
    rwa [add, hhashes] at hi
  exact hset i hrange (filter.hash_lt key i)

/-- A key that was found stays found. -/
theorem possiblyContains_add {filter : BloomFilter} {key : Bytes}
    (hcontains : filter.possiblyContains key) (other : Bytes) :
    (filter.add other).possiblyContains key := by
  obtain ⟨-, hhashes, -, hmono, -⟩ :=
    foldl_setBit (List.range filter.numHashes) (filter.hash other) filter _ rfl
  rw [possiblyContains, List.all_eq_true] at hcontains ⊢
  intro i hi
  rw [hash_add]
  have hrange : i ∈ List.range filter.numHashes := by
    rwa [add, hhashes] at hi
  exact hmono _ (hcontains i hrange)

end BloomFilter

end KopiDb
