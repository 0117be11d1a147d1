/-
# Crawler.Bloom.Filter — the visited filter kept in redis

`bloom_filter.c` over `MurmurHash3_x86_32` of `murmur3.c`: nine seeds, nine offsets into one redis
string. What the two operations can do is stated once, on their paths: `bloom_set` sets all nine bits
and sends nothing else, `bloom_check` only reads and answers 0 right after a bit it has read as 0.
-/
import Crawler.Redis

namespace Crawler.Bloom

open Crawler.Lib

/-! ## `murmur3.c` -/

/-- `ROTL32`. -/
def rotl32 (x r : UInt32) : UInt32 := (x <<< r) ||| (x >>> (32 - r))

/-- `fmix32`. -/
def fmix32 (h : UInt32) : UInt32 :=
  let h := h ^^^ (h >>> 16)
  let h := h * 0x85ebca6b
  let h := h ^^^ (h >>> 13)
  let h := h * 0xc2b2ae35
  h ^^^ (h >>> 16)

/-- `getblock`: four bytes read as a little-endian word. -/
def getblock (b0 b1 b2 b3 : UInt8) : UInt32 :=
  b0.toUInt32 ||| (b1.toUInt32 <<< 8) ||| (b2.toUInt32 <<< 16) ||| (b3.toUInt32 <<< 24)

/-- What a block or the tail is mixed with. -/
def mixK1 (k1 : UInt32) : UInt32 := rotl32 (k1 * 0xcc9e2d51) 15 * 0x1b873593

/-- The loop over the blocks, and after it the tail of at most three bytes. -/
def murmurBody (h1 : UInt32) : List UInt8 → UInt32
  | b0 :: b1 :: b2 :: b3 :: rest =>
      murmurBody (rotl32 (h1 ^^^ mixK1 (getblock b0 b1 b2 b3)) 13 * 5 + 0xe6546b64) rest
  | [] => h1
  | [t0] => h1 ^^^ mixK1 t0.toUInt32
  | [t0, t1] => h1 ^^^ mixK1 ((t1.toUInt32 <<< 8) ^^^ t0.toUInt32)
  | [t0, t1, t2] => h1 ^^^ mixK1 ((t2.toUInt32 <<< 16) ^^^ (t1.toUInt32 <<< 8) ^^^ t0.toUInt32)

/-- `MurmurHash3_x86_32(key, len, seed, out)` on the `len` bytes of `key`. -/
def murmurHash3X86_32 (key : List UInt8) (seed : UInt32) : UInt32 :=
  fmix32 (murmurBody seed key ^^^ UInt32.ofNat key.length)

/-! ## `bloom_filter.c` -/

/-- `BIT_SIZE`. -/
def bitSize : UInt32 := 4294967295

/-- `seeds`. -/
def seeds : List UInt32 := [1999, 2887, 3989, 4969, 5557, 6661, 7883, 8887, 9901]

/-- The key of the filter. -/
def bloomFilter : CStr := lit "bloom_filter"

/-- `bloom_init()`. -/
def bloomInit : Prog Command Reply Int := do
  let rc ← redisStringSetbit bloomFilter bitSize 0
  if rc < 0 then return -1
  else
    let rc ← redisStringBitop bloomFilter bloomFilter (lit "XOR") bloomFilter
    if rc < 0 then return -1
    else return 0

/-- The loop of `bloom_set`, from a seed on. -/
def setFrom (str : CStr) : List UInt32 → Prog Command Reply Int
  | [] => return 0
  | seed :: seeds => do
      let rc ← redisStringSetbit bloomFilter (murmurHash3X86_32 str seed) 1
      if rc < 0 then return -1
      else setFrom str seeds

/-- `bloom_set(str)`. -/
def bloomSet (str : CStr) : Prog Command Reply Int := setFrom str seeds

/-- The loop of `bloom_check`, from a seed on. -/
def checkFrom (str : CStr) : List UInt32 → Prog Command Reply Int
  | [] => return 1
  | seed :: seeds => do
      let r ← redisStringGetbit bloomFilter (murmurHash3X86_32 str seed)
      if r.1 < 0 then return -1
      else if r.2 = 0 then return 0
      else checkFrom str seeds

/-- `bloom_check(str)`. -/
def bloomCheck (str : CStr) : Prog Command Reply Int := checkFrom str seeds

/-- The nine offsets of a string. -/
def offsets (str : CStr) : List UInt32 := seeds.map (murmurHash3X86_32 str)

/-! ## What the operations send -/

/-- A bit of the filter being set. -/
def SetsBit (c : Command) : Prop := ∃ off, c = .setbit bloomFilter off true

/-- A bit of the filter being read. -/
def GetsBit (c : Command) : Prop := ∃ off, c = .getbit bloomFilter off

/-- All replies along a path are those of commands that succeed. -/
def AllAnswered (t : List (Command × Reply)) : Prop := ∀ x ∈ t, Answered x.1 x.2

theorem setFrom_sends (str : CStr) (seeds : List UInt32) :
    Prog.Sends SetsBit (setFrom str seeds) := by
  induction seeds with
  | nil => exact .done 0
  | cons seed seeds ih =>
      refine .bind (.ask ⟨_, rfl⟩ fun r => ?_) fun rc => ?_
      · cases r <;> exact .done _
      · split_ifs
        · exact .done _
        · exact ih

theorem checkFrom_sends (str : CStr) (seeds : List UInt32) :
    Prog.Sends GetsBit (checkFrom str seeds) := by
  induction seeds with
  | nil => exact .done 1
  | cons seed seeds ih =>
      refine .bind (.ask ⟨_, rfl⟩ fun r => ?_) fun r => ?_
      · cases r <;> exact .done _
      · split_ifs
        · exact .done _
        · exact .done _
        · exact ih

/-! ## What the operations have done when they return -/

theorem redisStringSetbit_done {str : CStr} {off value : UInt32} {t : List (Command × Reply)} {rc : Int}
    (h : (redisStringSetbit str off value).Path t (.done rc)) (hok : AllAnswered t) :
    rc = 0 ∧ ∃ r, t = [(.setbit str off (value != 0), r)] := by
  obtain ⟨t₁, t₂, r, rfl, hsend, hret⟩ := h.bind_done
  rcases Prog.path_ask_iff.mp hsend with ⟨-, hq⟩ | ⟨r', t', rfl, hdone⟩
  · cases hq
  · obtain ⟨rfl, hq⟩ := Prog.path_done_iff.mp hdone
    cases hq
    have hr : r ≠ .failed := (hok _ List.mem_cons_self).1
    cases r with
    | failed => exact absurd rfl hr
    | integer n =>
        obtain ⟨rfl, hq⟩ := Prog.path_done_iff.mp hret
        cases hq
        exact ⟨rfl, _, rfl⟩
    | other =>
        obtain ⟨rfl, hq⟩ := Prog.path_done_iff.mp hret
        cases hq
        exact ⟨rfl, _, rfl⟩

theorem redisStringGetbit_done {str : CStr} {off : UInt32} {t : List (Command × Reply)}
    {x : Int × UInt32} (h : (redisStringGetbit str off).Path t (.done x)) (hok : AllAnswered t) :
    x.1 = 0 ∧ t = [(.getbit str off, .integer x.2)] := by
  obtain ⟨t₁, t₂, r, rfl, hsend, hret⟩ := h.bind_done
  rcases Prog.path_ask_iff.mp hsend with ⟨-, hq⟩ | ⟨r', t', rfl, hdone⟩
  · cases hq
  · obtain ⟨rfl, hq⟩ := Prog.path_done_iff.mp hdone
    cases hq
    obtain ⟨n, rfl⟩ := (hok _ List.mem_cons_self).2 _ _ rfl
    obtain ⟨rfl, hq⟩ := Prog.path_done_iff.mp hret
    cases hq
    exact ⟨rfl, rfl⟩

/-- The loop of `bloom_set` has set a bit for every seed. -/
theorem setFrom_done {str : CStr} {seeds : List UInt32} {t : List (Command × Reply)} {rc : Int}
    (h : (setFrom str seeds).Path t (.done rc)) (hok : AllAnswered t) :
    ∀ seed ∈ seeds, ∃ r, (.setbit bloomFilter (murmurHash3X86_32 str seed) true, r) ∈ t := by
  induction seeds generalizing t with
  | nil => exact fun _ hm => by cases hm
  | cons seed seeds ih =>
      obtain ⟨t₁, t₂, rc', rfl, hset, hrest⟩ := h.bind_done
      obtain ⟨rfl, r, rfl⟩ :=
        redisStringSetbit_done hset fun x hx => hok x (List.mem_append_left _ hx)
      have htail := ih hrest fun x hx => hok x (List.mem_append_right _ hx)
      intro seed' hm
      rcases List.mem_cons.mp hm with rfl | hm
      · exact ⟨r, List.mem_cons_self⟩
      · obtain ⟨r', hr'⟩ := htail seed' hm
        exact ⟨r', List.mem_append_right _ hr'⟩

/-- The loop of `bloom_check` has found every bit set, or has just read one as 0. -/
theorem checkFrom_done {str : CStr} {seeds : List UInt32} {t : List (Command × Reply)} {rc : Int}
    (h : (checkFrom str seeds).Path t (.done rc)) (hok : AllAnswered t) :
    rc = 1 ∨ rc = 0 ∧ ∃ t' seed, seed ∈ seeds ∧
      t = t' ++ [(.getbit bloomFilter (murmurHash3X86_32 str seed), .integer 0)] := by
  induction seeds generalizing t with
  | nil =>
      obtain ⟨-, hq⟩ := Prog.path_done_iff.mp h
      cases hq
      exact .inl rfl
  | cons seed seeds ih =>
      obtain ⟨t₁, t₂, ⟨rc', value⟩, rfl, hget, hrest⟩ := h.bind_done
      obtain ⟨rfl, rfl⟩ :=
        redisStringGetbit_done hget fun x hx => hok x (List.mem_append_left _ hx)
      rw [if_neg (Int.lt_irrefl 0)] at hrest
      by_cases hzero : value = 0
      · rw [if_pos hzero] at hrest
        obtain ⟨rfl, hq⟩ := Prog.path_done_iff.mp hrest
        cases hq
        exact .inr ⟨rfl, [], seed, List.mem_cons_self, by rw [hzero]; rfl⟩
      · rw [if_neg hzero] at hrest
        rcases ih hrest fun x hx => hok x (List.mem_append_right _ hx) with hone | ⟨rfl, t', seed', hm, rfl⟩
        · exact .inl hone
        · exact .inr ⟨rfl, _ :: t', seed', List.mem_cons_of_mem _ hm, rfl⟩

theorem bloomSet_done {str : CStr} {t : List (Command × Reply)} {rc : Int}
    (h : (bloomSet str).Path t (.done rc)) (hok : AllAnswered t) :
    ∀ off ∈ offsets str, ∃ r, (.setbit bloomFilter off true, r) ∈ t := by
  intro off hm
  obtain ⟨seed, hseed, rfl⟩ := List.mem_map.mp hm
  exact setFrom_done h hok seed hseed

theorem bloomCheck_done {str : CStr} {t : List (Command × Reply)} {rc : Int}
    (h : (bloomCheck str).Path t (.done rc)) (hok : AllAnswered t) :
    rc = 1 ∨ rc = 0 ∧ ∃ t' off, off ∈ offsets str ∧
      t = t' ++ [(.getbit bloomFilter off, .integer 0)] := by
  rcases checkFrom_done h hok with hone | ⟨hzero, t', seed, hm, ht⟩
  · exact .inl hone
  · exact .inr ⟨hzero, t', _, List.mem_map_of_mem hm, ht⟩

end Crawler.Bloom
