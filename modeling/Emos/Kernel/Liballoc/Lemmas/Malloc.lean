import Emos.Kernel.Liballoc.Lemmas.Place

/-!
This module contains what the calls of `malloc` and `free` do to the blocks that have been handed out.
-/

open Lib

namespace Emos

namespace Liballoc

variable {σ : Type}

/--
What is known of the memory that the system has handed out: pages of 4096 bytes below the end of the address space,
which nothing else has been given.
-/
def Grants (Owns : σ → List (Nat × Nat) → Prop) (owned : List (Nat × Nat)) (n : Nat) : Option Nat → σ → Prop
  | none, s => Owns s owned
  | some a, s =>
    Owns s (owned ++ [(a, n)]) ∧ 0 < a ∧ a + n * pageSize < 2 ^ 32
      ∧ ∀ r ∈ owned, a + n * pageSize ≤ r.1 ∨ r.1 + r.2 * pageSize ≤ a

/--
The system hands out pages, or does not, and takes back what it has handed out.
-/
structure Platform.Lawful (P : Platform σ) (Owns : σ → List (Nat × Nat) → Prop) : Prop where
  alloc : ∀ {s owned n}, Owns s owned → 0 < n → n ≤ 2 ^ 20
    → ∃ res s', P.alloc s n = .ok (res, s') ∧ Grants Owns owned n res s'
  free : ∀ {s front a n back}, Owns s (front ++ (a, n) :: back)
    → ∃ s', P.free s a n = .ok s' ∧ Owns s' (front ++ back)

def Major.Apart (maj maj' : Major) : Prop := maj.addr + maj.size ≤ maj'.addr ∨ maj'.addr + maj'.size ≤ maj.addr

def Major.inuse (maj : Major) : Nat := (maj.minors.map Minor.size).sum

/--
The pointer that has been handed out, with the number of bytes that were asked for.
-/
def Minor.block (min : Minor) : Nat × Nat := (min.pointer, min.reqSize)

def Major.live (maj : Major) : List (Nat × Nat) := maj.minors.map Minor.block

namespace Heap

def pages (h : Heap σ) : List (Nat × Nat) := h.majors.map fun maj => (maj.addr, maj.pages)

/--
All that has been handed out and not been taken back.
-/
def live (h : Heap σ) : List (Nat × Nat) := h.majors.flatMap Major.live

/--
No major block has room for `size` bytes.
-/
def Full (h : Heap σ) (size : Nat) : Prop := ∀ maj ∈ h.majors, maj.Full size

structure Valid (h : Heap σ) : Prop where
  majors : ∀ maj ∈ h.majors, maj.Valid
  apart : h.majors.Pairwise Major.Apart
  bet : ∀ b, h.bestBet = some b → ∃ maj ∈ h.majors, maj.addr = b
  allocated_eq : h.allocated = u64 (h.majors.map Major.size).sum
  inuse_eq : h.inuse = u64 (h.majors.map Major.inuse).sum

/--
What holds between two calls: no major block is empty, and they are all that the system has handed out.
-/
structure Sound (Owns : σ → List (Nat × Nat) → Prop) (h : Heap σ) : Prop extends h.Valid where
  used : ∀ maj ∈ h.majors, maj.minors ≠ []
  owns : Owns h.system h.pages

variable {Owns : σ → List (Nat × Nat) → Prop} {P : Platform σ} {h h' : Heap σ} {maj maj' : Major}
  {front back : List Major} {size reqSize p : Nat}

theorem Valid.bestBet (hv : h.Valid) (hmaj : maj ∈ h.majors)
    : ({ h with bestBet := some maj.addr } : Heap σ).Valid where
  majors := hv.majors
  apart := hv.apart
  bet := by
    intro b hb
    exact ⟨maj, hmaj, Option.some.inj hb⟩
  allocated_eq := hv.allocated_eq
  inuse_eq := hv.inuse_eq

theorem Valid.setSystem (hv : h.Valid) (s : σ) : ({ h with system := s } : Heap σ).Valid :=
  ⟨hv.majors, hv.apart, hv.bet, hv.allocated_eq, hv.inuse_eq⟩

theorem Apart.congr {other : Major} (haddr : maj'.addr = maj.addr) (hsize : maj'.size = maj.size)
    : (maj'.Apart other ↔ maj.Apart other) ∧ (other.Apart maj' ↔ other.Apart maj) := by
  unfold Major.Apart
  rw [haddr, hsize]
  exact ⟨Iff.rfl, Iff.rfl⟩

/--
A major block has got other blocks in the same pages.
-/
theorem Valid.replace (hv : h.Valid) (hmajors : h.majors = front ++ maj :: back) (hmaj : maj'.Valid)
    (haddr : maj'.addr = maj.addr) (hsize : maj'.size = maj.size) {inuse : Nat}
    (hinuse : inuse = u64 ((front ++ maj' :: back).map Major.inuse).sum)
    : ({ h with majors := front ++ maj' :: back, inuse := inuse } : Heap σ).Valid where
  majors := by
    have hall := hv.majors
    rw [hmajors] at hall
    intro m hm
    dsimp only at hm
    rw [List.mem_append, List.mem_cons] at hm
    obtain hm | rfl | hm := hm
    . exact hall m (List.mem_append_left _ hm)
    . exact hmaj
    . exact hall m (List.mem_append_right _ (List.mem_cons_of_mem _ hm))
  apart := by
    have hall := hv.apart
    rw [hmajors, List.pairwise_append, List.pairwise_cons] at hall
    dsimp only
    rw [List.pairwise_append, List.pairwise_cons]
    refine ⟨hall.1, ⟨?_, hall.2.1.2⟩, ?_⟩
    . intro m hm
      exact (Apart.congr haddr hsize).1.mpr (hall.2.1.1 m hm)
    . intro m hm n hn
      cases List.mem_cons.mp hn with
      | inl heq =>
        rw [heq]
        exact (Apart.congr haddr hsize).2.mpr (hall.2.2 m hm maj List.mem_cons_self)
      | inr hn => exact hall.2.2 m hm n (List.mem_cons_of_mem _ hn)
  bet := by
    intro b hb
    obtain ⟨m, hm, hmb⟩ := hv.bet b hb
    rw [hmajors, List.mem_append, List.mem_cons] at hm
    obtain hm | rfl | hm := hm
    . exact ⟨m, List.mem_append_left _ hm, hmb⟩
    . exact ⟨maj', List.mem_append_right _ List.mem_cons_self, haddr.trans hmb⟩
    . exact ⟨m, List.mem_append_right _ (List.mem_cons_of_mem _ hm), hmb⟩
  allocated_eq := by
    have hall := hv.allocated_eq
    rw [hmajors, List.map_append, List.map_cons] at hall
    dsimp only
    rw [List.map_append, List.map_cons, hsize]
    exact hall
  inuse_eq := hinuse

/--
Something is new in a list.
-/
def Inserts {α : Type} (xs : List α) (x : α) (xs' : List α) : Prop :=
  ∃ front back, xs = front ++ back ∧ xs' = front ++ x :: back

theorem Inserts.append {α : Type} {xs xs' : List α} {x : α} (hins : Inserts xs x xs') (as bs : List α)
    : Inserts (as ++ xs ++ bs) x (as ++ xs' ++ bs) := by
  obtain ⟨front, back, hold, hnew⟩ := hins
  refine ⟨as ++ front, back ++ bs, ?_, ?_⟩
  . rw [hold]
    simp
  . rw [hnew]
    simp

theorem u64_add (a b : Nat) : u64 (u64 a + b) = u64 (a + b) := by
  unfold u64
  lia

theorem mem_middle {α : Type} {xs front back : List α} {x : α} (h : xs = front ++ x :: back) : x ∈ xs := by
  rw [h]
  exact List.mem_append_right _ List.mem_cons_self

theorem set_middle {α : Type} {xs front back : List α} {x : α} (h : xs = front ++ x :: back) (y : α)
    : xs.set front.length y = front ++ y :: back := by
  rw [h, List.set_append_right _ _ (Nat.le_refl _), Nat.sub_self, List.set_cons_zero]

theorem live_split (hmajors : h.majors = front ++ maj :: back)
    : h.live = front.flatMap Major.live ++ maj.live ++ back.flatMap Major.live := by
  unfold live
  rw [hmajors, List.flatMap_append, List.flatMap_cons, List.append_assoc]

theorem placed_live (hp : Placed maj size reqSize maj' p) : Inserts maj.live (p, reqSize) maj'.live := by
  obtain ⟨new, front, back, hins⟩ := hp.inserted
  refine ⟨front.map Minor.block, back.map Minor.block, ?_, ?_⟩
  . unfold Major.live
    rw [hins.old, List.map_append]
  . unfold Major.live Minor.block
    rw [hins.now, List.map_append, List.map_cons, hins.pointer, hins.reqSize_eq]

theorem placed_inuse (hp : Placed maj size reqSize maj' p) : maj'.inuse = maj.inuse + size := by
  obtain ⟨new, front, back, hins⟩ := hp.inserted
  unfold Major.inuse
  rw [hins.old, hins.now, List.map_append, List.map_append, List.map_cons, List.sum_append, List.sum_append,
    List.sum_cons, hins.size_eq]
  omega

theorem placed_ne_nil (hp : Placed maj size reqSize maj' p) : maj'.minors ≠ [] := by
  obtain ⟨new, front, back, hins⟩ := hp.inserted
  rw [hins.now]
  exact List.append_ne_nil_of_right_ne_nil _ (List.cons_ne_nil _ _)

/--
What a call that puts a block of `size` bytes into a major block leaves behind.
-/
theorem Valid.placed (hv : h.Valid) (hmajors : h.majors = front ++ maj :: back) (hp : Placed maj size reqSize maj' p)
    : let h' : Heap σ := { h with majors := h.majors.set front.length maj', inuse := u64 (h.inuse + size) }
      h'.Valid ∧ h'.majors = front ++ maj' :: back ∧ h'.pages = h.pages ∧ Inserts h.live (p, reqSize) h'.live := by
  have hinuse : u64 (h.inuse + size) = u64 ((front ++ maj' :: back).map Major.inuse).sum := by
    rw [hv.inuse_eq, u64_add, hmajors, List.map_append, List.map_append, List.map_cons, List.map_cons, List.sum_append,
      List.sum_append, List.sum_cons, List.sum_cons, placed_inuse hp]
    congr 1
    omega
  dsimp only
  rw [set_middle hmajors]
  refine ⟨hv.replace hmajors hp.valid hp.addr_eq hp.size_eq hinuse, rfl, ?_, ?_⟩
  . unfold pages
    rw [hmajors, List.map_append, List.map_append, List.map_cons, List.map_cons, hp.addr_eq, hp.pages_eq]
  . rw [live_split hmajors]
    have hins := (placed_live hp).append (front.flatMap Major.live) (back.flatMap Major.live)
    have hlive := live_split (h := ({ h with majors := front ++ maj' :: back } : Heap σ)) rfl
    exact hlive ▸ hins

/--
An empty major block that has just been got from the system.
-/
structure Fresh (Owns : σ → List (Nat × Nat) → Prop) (h : Heap σ) (size : Nat) (maj : Major) (s : σ) : Prop where
  valid : maj.Valid
  minors : maj.minors = []
  room : majorSize + (size + minorSize) ≤ maj.size
  apart : ∀ m ∈ h.majors, m.Apart maj
  owns : Owns s (h.pages ++ [(maj.addr, maj.pages)])

theorem allocateNewPage_spec (hP : P.Lawful Owns) (hv : h.Valid) (howns : Owns h.system h.pages)
    (hsize : size + (majorSize + minorSize) < 2 ^ 32)
    : (∃ s n, allocateNewPage P size h = .ok (none, { h with system := s }) ∧ P.alloc h.system n = .ok (none, s)
          ∧ Owns s h.pages)
        ∨
      ∃ maj s, allocateNewPage P size h
          = .ok (some maj, { h with system := s, allocated := u64 (h.allocated + maj.size) })
        ∧ Fresh Owns h size maj s := by
  unfold majorSize minorSize at hsize
  have hst : u32 (u32 (size + majorSize) + minorSize) = size + 48 := by
    unfold majorSize minorSize
    rw [u32_of_lt (show size + 24 < 2 ^ 32 by omega), u32_of_lt (by omega)]
  unfold allocateNewPage
  rw [hst]
  dsimp only
  generalize hpages : (if (if (size + 48) % pageSize = 0 then (size + 48) / pageSize else (size + 48) / pageSize + 1)
      < leastPages then leastPages
    else if (size + 48) % pageSize = 0 then (size + 48) / pageSize else (size + 48) / pageSize + 1) = n
  have hn : 0 < n ∧ n ≤ 2 ^ 20 ∧ size + 48 ≤ n * pageSize := by
    unfold pageSize leastPages at hpages
    unfold pageSize
    split at hpages
    . split at hpages
      . lia
      . lia
    . split at hpages
      . lia
      . lia
  obtain ⟨res, s, halloc, hgrants⟩ := hP.alloc howns hn.1 hn.2.1
  rw [halloc]
  cases res with
  | none => exact .inl ⟨s, n, rfl, halloc, hgrants⟩
  | some a =>
    obtain ⟨hall, hpos, hfits, hapart⟩ := hgrants
    have hmul : u32 (n * pageSize) = n * pageSize := u32_of_lt (by omega)
    right
    refine ⟨⟨a, n, u32 (n * pageSize), majorSize, []⟩, s, rfl, ?_⟩
    rw [hmul]
    refine ⟨⟨rfl, hpos, hfits, ?_, rfl, fun _ hmin => absurd hmin List.not_mem_nil⟩, rfl, ?_, ?_, hall⟩
    . change a + majorSize ≤ a + n * pageSize
      unfold majorSize
      lia
    . unfold majorSize minorSize
      dsimp only
      omega
    . intro m hm
      have hsize := (hv.majors m hm).size_eq
      have hmem : (m.addr, m.pages) ∈ h.pages := List.mem_map.mpr ⟨m, hm, rfl⟩
      unfold Major.Apart
      rw [hsize]
      exact (hapart _ hmem).symm

/--
The heap with a new major block behind the others.
-/
def extend (h : Heap σ) (maj : Major) (bet : Option Nat) (s : σ) : Heap σ where
  majors := h.majors ++ [maj]
  bestBet := bet
  allocated := u64 (h.allocated + maj.size)
  inuse := h.inuse
  system := s

theorem Fresh.valid_extend {s : σ} (hf : Fresh Owns h size maj s) (hv : h.Valid) {bet : Option Nat}
    (hbet : bet = h.bestBet ∨ bet = some maj.addr) : (h.extend maj bet s).Valid where
  majors := by
    intro m hm
    unfold extend at hm
    rw [List.mem_append, List.mem_singleton] at hm
    cases hm with
    | inl hm => exact hv.majors m hm
    | inr hm =>
      rw [hm]
      exact hf.valid
  apart := by
    unfold extend
    rw [List.pairwise_append]
    refine ⟨hv.apart, List.pairwise_singleton _ _, ?_⟩
    intro m hm n hn
    rw [List.mem_singleton] at hn
    rw [hn]
    exact hf.apart m hm
  bet := by
    intro b hb
    unfold extend at hb ⊢
    cases hbet with
    | inl hold =>
      rw [hold] at hb
      obtain ⟨m, hm, hmb⟩ := hv.bet b hb
      exact ⟨m, List.mem_append_left _ hm, hmb⟩
    | inr hnew =>
      rw [hnew] at hb
      exact ⟨maj, List.mem_append_right _ List.mem_cons_self, Option.some.inj hb⟩
  allocated_eq := by
    unfold extend
    rw [hv.allocated_eq, u64_add, List.map_append, List.map_singleton, List.sum_append, List.sum_singleton]
  inuse_eq := by
    have hzero : maj.inuse = 0 := by
      unfold Major.inuse
      rw [hf.minors]
      rfl
    unfold extend
    rw [hv.inuse_eq, List.map_append, List.map_singleton, List.sum_append, List.sum_singleton, hzero, Nat.add_zero]

theorem Fresh.live_extend {s : σ} (hf : Fresh Owns h size maj s) (bet : Option Nat)
    : (h.extend maj bet s).live = h.live := by
  have hnil : maj.live = [] := by
    unfold Major.live
    rw [hf.minors, List.map_nil]
  unfold live extend
  rw [List.flatMap_append, List.flatMap_singleton, hnil, List.append_nil]

theorem pages_extend (s : σ) (bet : Option Nat) : (h.extend maj bet s).pages = h.pages ++ [(maj.addr, maj.pages)] := by
  unfold pages extend
  rw [List.map_append, List.map_singleton]

/--
What a call of `malloc` makes of the heap `h`. The system is only asked for pages where no major block has room.
-/
def Serves (P : Platform σ) (Owns : σ → List (Nat × Nat) → Prop) (h : Heap σ) (size reqSize : Nat)
    (r : Run (Option Nat × Heap σ)) : Prop :=
  (∃ p h', r = .ok (some p, h') ∧ h'.Sound Owns ∧ Inserts h.live (p, reqSize) h'.live
      ∧ (h'.system = h.system ∧ h'.pages = h.pages ∨ h.Full size ∧ ∃ a n, h'.pages = h.pages ++ [(a, n)]))
    ∨
  ∃ h', r = .ok (none, h') ∧ h'.Sound Owns ∧ h'.majors = h.majors ∧ h.Full size
    ∧ ∃ n, P.alloc h.system n = .ok (none, h'.system)

theorem place_of_nil (size reqSize : Nat) (h : maj.minors = [])
    : ∃ maj' p, place maj size reqSize = some (maj', p) := by
  unfold place placeMinor
  rw [h]
  exact ⟨_, _, rfl⟩

variable {started : Bool}

/--
A request is met from a new major block.
-/
theorem Fresh.serve (again : Nat → Bool → Heap σ → Run (Option Nat × Heap σ)) (started : Bool) {s : σ}
    (hf : Fresh Owns h size maj s) (hs : h.Sound Owns) {bet : Option Nat}
    (hbet : bet = h.bestBet ∨ bet = some maj.addr) (hfull : h.Full size)
    (hroom : reqSize + (alignment + alignInfo) ≤ size) (hsize : size + minorSize < 2 ^ 32)
    : Serves P Owns h size reqSize
        (serve P size reqSize again h.majors.length started maj (h.extend maj bet s)) := by
  have hplace := place_spec hf.valid hroom hsize fun _ => hf.room
  obtain ⟨maj', p, heq⟩ := place_of_nil size reqSize hf.minors
  rw [heq] at hplace
  have hmajors : (h.extend maj bet s).majors = h.majors ++ maj :: [] := rfl
  obtain ⟨hvalid, hmajors', hpages, hins⟩ := (hf.valid_extend hs.toValid hbet).placed hmajors hplace
  rw [hf.live_extend] at hins
  rw [pages_extend] at hpages
  unfold Liballoc.serve
  rw [heq]
  refine .inl ⟨p, _, rfl, ⟨hvalid, ?_, ?_⟩, hins, .inr ⟨hfull, maj.addr, maj.pages, hpages⟩⟩
  . intro m hm
    rw [hmajors', List.mem_append, List.mem_singleton] at hm
    cases hm with
    | inl hm => exact hs.used m hm
    | inr hm =>
      rw [hm]
      exact placed_ne_nil hplace
  . rw [hpages]
    exact hf.owns

theorem needed_eq (hsize : size + (majorSize + minorSize) < 2 ^ 32) : needed size = size + minorSize :=
  u32_of_lt (by omega)

/--
A round of the loop for a new major block is the last one.
-/
theorem Fresh.mallocLoop {s : σ} (hf : Fresh Owns h size maj s) (hs : h.Sound Owns) (hfull : h.Full size)
    (hroom : reqSize + (alignment + alignInfo) ≤ size) (hsize : size + (majorSize + minorSize) < 2 ^ 32)
    (n bestSize : Nat) (started : Bool)
    : Serves P Owns h size reqSize
        (mallocLoop P size reqSize (n + 1) h.majors.length started bestSize (h.extend maj h.bestBet s)) := by
  have hget : (h.extend maj h.bestBet s).majors[h.majors.length]? = some maj := List.getElem?_concat_length
  have husage : maj.usage = majorSize := by
    rw [hf.valid.usage_eq, hf.minors]
    rfl
  have hfits := hf.valid.fits
  have hroom' := hf.room
  have hdiff : ¬ sub32 maj.size maj.usage < needed size := by
    rw [husage, sub32_of_le (by omega) (by omega), needed_eq hsize]
    lia
  unfold Liballoc.mallocLoop
  rw [hget]
  dsimp only
  rw [if_neg hdiff]
  by_cases hbest : bestSize < sub32 maj.size maj.usage
  . rw [if_pos hbest]
    exact hf.serve _ started hs (.inr rfl) hfull hroom (by omega)
  . rw [if_neg hbest]
    exact hf.serve _ started hs (.inl rfl) hfull hroom (by omega)

theorem Sound.serve_placed (again : Nat → Bool → Heap σ → Run (Option Nat × Heap σ)) (started : Bool)
    (hs : h.Sound Owns) (hmajors : h.majors = front ++ maj :: back)
    (heq : place maj size reqSize = some (maj', p)) (hp : Placed maj size reqSize maj' p)
    : Serves P Owns h size reqSize (serve P size reqSize again front.length started maj h) := by
  obtain ⟨hvalid, hmajors', hpages, hins⟩ := hs.toValid.placed hmajors hp
  unfold serve
  rw [heq]
  refine .inl ⟨p, _, rfl, ⟨hvalid, ?_, ?_⟩, hins, .inl ⟨rfl, hpages⟩⟩
  . have hused := hs.used
    rw [hmajors] at hused
    intro m hm
    rw [hmajors', List.mem_append, List.mem_cons] at hm
    obtain hm | rfl | hm := hm
    . exact hused m (List.mem_append_left _ hm)
    . exact placed_ne_nil hp
    . exact hused m (List.mem_append_right _ (List.mem_cons_of_mem _ hm))
  . rw [hpages]
    exact hs.owns

theorem Sound.setBet (hs : h.Sound Owns) {bet : Option Nat}
    (hbet : bet = h.bestBet ∨ ∃ maj ∈ h.majors, bet = some maj.addr)
    : ({ h with bestBet := bet } : Heap σ).Sound Owns := by
  cases hbet with
  | inl hold =>
    rw [hold]
    exact hs
  | inr hnew =>
    obtain ⟨maj, hmaj, rfl⟩ := hnew
    exact ⟨hs.toValid.bestBet hmaj, hs.used, hs.owns⟩

/--
The loop ends within the rounds it has: it looks into every block behind `i`, and once into all of them if it has
started at the best bet.
-/
theorem mallocLoop_spec (hP : P.Lawful Owns) (hroom : reqSize + (alignment + alignInfo) ≤ size)
    (hsize : size + (majorSize + minorSize) < 2 ^ 32) {n i bestSize : Nat} (hs : h.Sound Owns)
    (hi : i < h.majors.length)
    (hn : (if started then h.majors.length else 0) + (h.majors.length - i) + 1 ≤ n)
    (hseen : started = false → ∀ maj ∈ h.majors.take i, maj.Full size)
    : Serves P Owns h size reqSize (mallocLoop P size reqSize n i started bestSize h) := by
  induction n generalizing i started bestSize h with
  | zero => omega
  | succ n ih =>
    have hsplit : h.majors = h.majors.take i ++ h.majors[i] :: h.majors.drop (i + 1) := by
      rw [← List.drop_eq_getElem_cons hi, List.take_append_drop]
    have hmem : h.majors[i] ∈ h.majors := List.getElem_mem hi
    have hlength : (h.majors.take i).length = i := by
      rw [List.length_take]
      lia
    have hget : h.majors[i]? = some h.majors[i] := List.getElem?_eq_getElem hi
    generalize h.majors[i] = maj at hsplit hmem hget
    have hvalid := hs.majors maj hmem
    unfold Liballoc.mallocLoop
    rw [hget]
    dsimp only
    obtain ⟨bet, best, hpair, hbet⟩ : ∃ bet best, (if bestSize < sub32 maj.size maj.usage then
        (some maj.addr, sub32 maj.size maj.usage) else (h.bestBet, bestSize)) = (bet, best)
        ∧ (bet = h.bestBet ∨ ∃ maj ∈ h.majors, bet = some maj.addr) := by
      split
      . exact ⟨_, _, rfl, .inr ⟨maj, hmem, rfl⟩⟩
      . exact ⟨_, _, rfl, .inl rfl⟩
    rw [hpair]
    dsimp only
    have hs' := hs.setBet hbet
    -- how the loop goes on when this block has no room, where `last` is what is done behind the last block
    have hadvance : ∀ last : Run (Option Nat × Heap σ), maj.Full size →
        (i + 1 = h.majors.length → h.Full size → Serves P Owns h size reqSize last) →
        Serves P Owns h size reqSize
          (if i + 1 < h.majors.length then
            Liballoc.mallocLoop P size reqSize n (i + 1) started best { h with bestBet := bet }
          else if started then
            Liballoc.mallocLoop P size reqSize n 0 false best { h with bestBet := bet }
          else last) := by
      intro last hfull hlast
      have hseen' : started = false → ∀ m ∈ h.majors.take (i + 1), m.Full size := by
        intro hstarted m hm
        rw [List.take_add_one, hget, List.mem_append] at hm
        cases hm with
        | inl hm => exact hseen hstarted m hm
        | inr hm =>
          rw [List.mem_singleton.mp hm]
          exact hfull
      by_cases hnext : i + 1 < h.majors.length
      . rw [if_pos hnext]
        exact ih hs' hnext (by dsimp only; lia) hseen'
      . rw [if_neg hnext]
        cases started with
        | true =>
          rw [if_pos rfl] at hn ⊢
          exact ih hs' (by dsimp only; lia) (by dsimp only; simp; lia) (fun _ m hm => absurd hm (by simp))
        | false =>
          rw [if_neg Bool.false_ne_true]
          refine hlast (by lia) fun m hm => ?_
          have hall := hseen' rfl
          rw [List.take_of_length_le (by lia)] at hall
          exact hall m hm
    by_cases hlt : sub32 maj.size maj.usage < needed size
    . -- case 1: too few bytes are free
      have husage : maj.usage ≤ maj.size := by
        have hle := hvalid.packed.occupied_le
        have heq := hvalid.usage_eq
        lia
      have hfits := hvalid.fits
      rw [sub32_of_le husage (by omega), needed_eq hsize] at hlt
      rw [sub32_of_le husage (by omega), needed_eq hsize, if_pos hlt]
      apply hadvance _ (hvalid.full hlt)
      intro hlast hfull
      obtain ⟨s, k, hnew, halloc, howns⟩ | ⟨new, s, hnew, hfresh⟩ := allocateNewPage_spec hP hs'.toValid hs'.owns hsize
      . rw [hnew]
        exact .inr ⟨_, rfl, ⟨hs'.toValid.setSystem s, hs'.used, howns⟩, rfl, hfull, k, halloc⟩
      . rw [hnew, hlast]
        exact hfresh.serve (fun i started h => Liballoc.mallocLoop P size reqSize n i started best h) started hs'
          (.inl rfl) hfull hroom (by omega)
    . rw [if_neg hlt]
      have hplace := place_spec hvalid hroom (by omega) fun hnil => absurd hnil (hs.used maj hmem)
      cases heq : place maj size reqSize with
      | some r =>
        obtain ⟨maj', p⟩ := r
        rw [heq] at hplace
        have hserve := fun again => hs'.serve_placed (P := P) again started hsplit heq hplace
        rw [hlength] at hserve
        exact hserve _
      | none =>
        rw [heq] at hplace
        unfold Liballoc.serve
        rw [heq]
        apply hadvance _ hplace
        intro hlast hfull
        obtain ⟨s, k, hnew, halloc, howns⟩ | ⟨new, s, hnew, hfresh⟩ :=
          allocateNewPage_spec hP hs'.toValid hs'.owns hsize
        . rw [hnew]
          exact .inr ⟨_, rfl, ⟨hs'.toValid.setSystem s, hs'.used, howns⟩, rfl, hfull, k, halloc⟩
        . obtain ⟨n, rfl⟩ := Nat.exists_eq_add_one_of_ne_zero (show n ≠ 0 by lia)
          rw [hnew, hlast]
          exact hfresh.mallocLoop hs' hfull hroom hsize n best started

theorem search_spec (hP : P.Lawful Owns) (hroom : reqSize + (alignment + alignInfo) ≤ size)
    (hsize : size + (majorSize + minorSize) < 2 ^ 32) (hs : h.Sound Owns) (hne : h.majors ≠ [])
    : Serves P Owns h size reqSize (search P size reqSize h) := by
  have hpos := List.length_pos_iff.mpr hne
  have hfirst : ∀ bestSize,
      Serves P Owns h size reqSize
        (Liballoc.mallocLoop P size reqSize (2 * h.majors.length + 2) 0 false bestSize h) := by
    intro bestSize
    apply mallocLoop_spec hP hroom hsize hs hpos
    . rw [if_neg Bool.false_ne_true]
      lia
    . intro _ m hm
      rw [List.take_zero] at hm
      exact absurd hm List.not_mem_nil
  unfold search
  cases hbet : h.bestBet with
  | none => exact hfirst 0
  | some bet =>
    obtain ⟨maj, hmaj, haddr⟩ := hs.bet bet hbet
    have hfound : ∃ x ∈ h.majors, decide (x.addr = bet) = true := ⟨maj, hmaj, decide_eq_true haddr⟩
    obtain ⟨best, hmajorAt⟩ := Option.isSome_iff_exists.mp (List.find?_isSome.mpr hfound)
    obtain ⟨i, hindexOf⟩ := Option.isSome_iff_exists.mp (List.findIdx?_isSome.trans (List.any_eq_true.mpr hfound))
    have hi := (List.findIdx?_eq_some_iff_getElem.mp hindexOf).1
    dsimp only
    unfold indexOf majorAt
    rw [hindexOf, hmajorAt]
    dsimp only
    split
    . apply mallocLoop_spec hP hroom hsize hs hi
      . rw [if_pos rfl]
        lia
      . intro hstarted
        contradiction
    . exact hfirst _

theorem mallocSized_spec (hP : P.Lawful Owns) (hroom : reqSize + (alignment + alignInfo) ≤ size)
    (hsize : size + (majorSize + minorSize) < 2 ^ 32) (hs : h.Sound Owns)
    : Serves P Owns h size reqSize (mallocSized P size reqSize h) := by
  unfold mallocSized
  by_cases hnil : h.majors = []
  . have hfull : h.Full size := by
      intro m hm
      rw [hnil] at hm
      exact absurd hm List.not_mem_nil
    have hbet : h.bestBet = none := by
      cases hbet : h.bestBet with
      | none => rfl
      | some bet =>
        obtain ⟨m, hm, _⟩ := hs.bet bet hbet
        rw [hnil] at hm
        exact absurd hm List.not_mem_nil
    rw [if_pos hnil]
    obtain ⟨s, n, hnew, halloc, howns⟩ | ⟨new, s, hnew, hfresh⟩ := allocateNewPage_spec hP hs.toValid hs.owns hsize
    . rw [hnew]
      exact .inr ⟨_, rfl, ⟨hs.toValid.setSystem s, hs.used, howns⟩, rfl, hfull, n, halloc⟩
    . have hloop := hfresh.mallocLoop (P := P) hs hfull hroom hsize 3 0 false
      have hextend : h.extend new h.bestBet s
          = { h with majors := [new], bestBet := none, allocated := u64 (h.allocated + new.size), system := s } := by
        unfold extend
        rw [hnil, hbet, List.nil_append]
      rw [hextend, hnil] at hloop
      rw [hnew]
      unfold search
      dsimp only [bind, Except.bind]
      rw [hbet]
      exact hloop
  . rw [if_neg hnil]
    exact search_spec hP hroom hsize hs hnil

theorem malloc_eq (hreq : reqSize + (alignment + alignInfo) < 2 ^ 32) (h : Heap σ)
    : malloc P reqSize h = mallocSized P (reqSize + (alignment + alignInfo)) reqSize h := by
  unfold malloc
  rw [u32_of_lt hreq, if_neg (by unfold alignment; omega)]

theorem malloc_spec (hP : P.Lawful Owns)
    (hreq : reqSize + (alignment + alignInfo) + (majorSize + minorSize) < 2 ^ 32) (hs : h.Sound Owns)
    : Serves P Owns h (reqSize + (alignment + alignInfo)) reqSize (malloc P reqSize h) := by
  rw [malloc_eq (by omega)]
  exact mallocSized_spec hP (Nat.le_refl _) hreq hs

/--
A pointer that has been handed out leads to its blocks.
-/
theorem blockOf_of_live (hlive : p ∈ h.live.map Prod.fst)
    : ∃ front maj back min, h.majors = front ++ maj :: back ∧ min ∈ maj.minors ∧ min.pointer = p
        ∧ h.blockOf p = some (front.length, maj, min) := by
  obtain ⟨r, hr, hp⟩ := List.mem_map.mp hlive
  obtain ⟨m, hm, hr⟩ := List.mem_flatMap.mp hr
  obtain ⟨min, hmin, hblock⟩ := List.mem_map.mp hr
  have hpointer : min.pointer = p := by
    rw [← hp, ← hblock]
    rfl
  have hsome : ∃ m ∈ h.majors, (m.minorOf p).isSome = true :=
    ⟨m, hm, List.find?_isSome.mpr ⟨min, hmin, decide_eq_true hpointer⟩⟩
  obtain ⟨i, hfound⟩ := Option.isSome_iff_exists.mp (List.findIdx?_isSome.trans (List.any_eq_true.mpr hsome))
  obtain ⟨hi, hminor, _⟩ := List.findIdx?_eq_some_iff_getElem.mp hfound
  obtain ⟨min', hminorOf⟩ := Option.isSome_iff_exists.mp hminor
  have hsplit : h.majors = h.majors.take i ++ h.majors[i] :: h.majors.drop (i + 1) := by
    rw [← List.drop_eq_getElem_cons hi, List.take_append_drop]
  have hlength : (h.majors.take i).length = i := by
    rw [List.length_take]
    lia
  refine ⟨h.majors.take i, h.majors[i], h.majors.drop (i + 1), min', hsplit, List.mem_of_find?_eq_some hminorOf, ?_, ?_⟩
  . have hfind : h.majors[i].minors.find? (·.pointer = p) = some min' := hminorOf
    simpa using List.find?_some hfind
  . unfold blockOf
    rw [hfound, hlength]
    dsimp only [bind, Option.bind]
    rw [List.getElem?_eq_getElem hi]
    dsimp only
    rw [hminorOf]

theorem u64_sub {a s : Nat} (hs : s ≤ 2 ^ 64) : u64 (u64 (a + s) + (2 ^ 64 - s)) = u64 a := by
  unfold u64
  omega

/--
A block is taken out of its major block.
-/
theorem valid_erase {min : Minor} {before behind : List Minor} (hv : maj.Valid)
    (hminors : maj.minors = before ++ min :: behind)
    : ({ maj with usage := sub32 maj.usage (needed min.size), minors := before ++ behind } : Major).Valid where
  size_eq := hv.size_eq
  addr_pos := hv.addr_pos
  fits := hv.fits
  packed := by
    have hpacked := hv.packed
    rw [hminors] at hpacked
    exact hpacked.sublist ((List.sublist_cons_self min behind).append_left before)
  usage_eq := by
    have hoccupied : occupied Minor.len (before ++ min :: behind) = occupied Minor.len (before ++ behind) + min.len :=
      occupied_insert
    have hle := hv.packed.occupied_le
    have husage := hv.usage_eq
    have hfits := hv.fits
    rw [hminors] at hle husage
    rw [hoccupied] at hle husage
    have hlen : min.len = minorSize + min.size := rfl
    have hneeded : needed min.size = min.size + minorSize := u32_of_lt (by lia)
    dsimp only
    rw [hneeded, sub32_of_le (by lia) (by lia)]
    lia
  minors := by
    intro m hm
    apply hv.minors
    rw [hminors]
    rw [List.mem_append] at hm ⊢
    exact hm.imp_right (List.mem_cons_of_mem _)

/--
The last block has gone, and the pages of its major block go back to the system.
-/
theorem Sound.remove (hs : h.Sound Owns) (hmajors : h.majors = front ++ maj :: back) {min : Minor}
    (hminors : maj.minors = [min]) {s : σ} (howns : Owns s ((front ++ back).map fun maj => (maj.addr, maj.pages)))
    : let h' : Heap σ := {
        majors := h.majors.eraseIdx front.length
        bestBet := if h.bestBet = some maj.addr then none else h.bestBet
        allocated := u64 (h.allocated + (2 ^ 64 - maj.size))
        inuse := u64 (h.inuse + (2 ^ 64 - min.size))
        system := s
      }
      h'.Sound Owns ∧ Inserts h'.live min.block h.live ∧ Inserts h'.pages (maj.addr, maj.pages) h.pages := by
  have herase : h.majors.eraseIdx front.length = front ++ back := by
    rw [hmajors, List.eraseIdx_append_of_length_le (Nat.le_refl _), Nat.sub_self, List.eraseIdx_cons_zero]
  have hsub : List.Sublist (front ++ back) h.majors := by
    rw [hmajors]
    exact (List.sublist_cons_self maj back).append_left front
  have hmem := mem_middle hmajors
  have hsize := (hs.majors maj hmem).fits
  have hmin : min.size ≤ 2 ^ 64 := by
    have hle := (hs.majors maj hmem).packed.occupied_le
    have hoccupied : occupied Minor.len maj.minors = minorSize + min.size := by
      rw [hminors]
      unfold occupied Minor.len
      rw [List.map_singleton, List.sum_singleton]
    lia
  have hinuse : maj.inuse = min.size := by
    unfold Major.inuse
    rw [hminors, List.map_singleton, List.sum_singleton]
  have hlive : maj.live = [min.block] := by
    unfold Major.live
    rw [hminors, List.map_singleton]
  dsimp only
  rw [herase]
  refine ⟨⟨⟨fun m hm => hs.majors m (hsub.subset hm), hs.apart.sublist hsub, ?_, ?_, ?_⟩,
    fun m hm => hs.used m (hsub.subset hm), howns⟩, ?_, ?_⟩
  . intro b hb
    dsimp only at hb
    split at hb
    . contradiction
    . next hne =>
      obtain ⟨m, hm, hmb⟩ := hs.bet b hb
      rw [hmajors, List.mem_append, List.mem_cons] at hm
      obtain hm | heq | hm := hm
      . exact ⟨m, List.mem_append_left _ hm, hmb⟩
      . rw [heq] at hmb
        rw [hb, hmb] at hne
        exact absurd rfl hne
      . exact ⟨m, List.mem_append_right _ hm, hmb⟩
  . dsimp only
    rw [hs.allocated_eq, hmajors, List.map_append, List.map_cons, List.sum_append, List.sum_cons,
      Nat.add_left_comm, Nat.add_comm maj.size, u64_sub (by omega), List.map_append, List.sum_append]
  . dsimp only
    rw [hs.inuse_eq, hmajors, List.map_append, List.map_cons, List.sum_append, List.sum_cons, hinuse,
      Nat.add_left_comm, Nat.add_comm min.size, u64_sub (by omega), List.map_append, List.sum_append]
  . refine ⟨front.flatMap Major.live, back.flatMap Major.live, ?_, ?_⟩
    . exact List.flatMap_append
    . rw [live_split hmajors, hlive, List.append_assoc, List.singleton_append]
  . refine ⟨front.map fun maj => (maj.addr, maj.pages), back.map fun maj => (maj.addr, maj.pages), ?_, ?_⟩
    . exact List.map_append
    . unfold pages
      rw [hmajors, List.map_append, List.map_cons]

/--
Other blocks are left in the major block.
-/
theorem Sound.shrink (hs : h.Sound Owns) (hmajors : h.majors = front ++ maj :: back) {min : Minor}
    {before behind : List Minor} (hminors : maj.minors = before ++ min :: behind) (hne : before ++ behind ≠ [])
    : let maj' : Major := { maj with usage := sub32 maj.usage (needed min.size), minors := before ++ behind }
      let h' : Heap σ := {
        h with inuse := u64 (h.inuse + (2 ^ 64 - min.size)), majors := h.majors.set front.length maj'
      }
      h'.Sound Owns ∧ (∃ m ∈ h'.majors, some maj.addr = some m.addr) ∧ Inserts h'.live min.block h.live
        ∧ h'.pages = h.pages := by
  intro maj'
  have hmem := mem_middle hmajors
  have hvalid : maj'.Valid := valid_erase (hs.majors maj hmem) hminors
  have hfits := (hs.majors maj hmem).fits
  have hmin : min.size ≤ 2 ^ 64 := by
    have hle := ((hs.majors maj hmem).packed.within (mem_middle hminors)).2
    have hlen : min.len = minorSize + min.size := rfl
    omega
  have hsum : maj.inuse = maj'.inuse + min.size := by
    unfold Major.inuse
    rw [hminors, List.map_append, List.map_append, List.map_cons, List.sum_append, List.sum_append, List.sum_cons]
    omega
  have hinuse : u64 (h.inuse + (2 ^ 64 - min.size)) = u64 ((front ++ maj' :: back).map Major.inuse).sum := by
    have htotal : (h.majors.map Major.inuse).sum = ((front ++ maj' :: back).map Major.inuse).sum + min.size := by
      rw [hmajors, List.map_append, List.map_append, List.map_cons, List.map_cons, List.sum_append, List.sum_append,
        List.sum_cons, List.sum_cons, hsum]
      omega
    rw [hs.inuse_eq, htotal, u64_sub hmin]
  have hpages : (front ++ maj' :: back).map (fun maj => (maj.addr, maj.pages)) = h.pages := by
    unfold pages
    rw [hmajors, List.map_append, List.map_append, List.map_cons, List.map_cons]
  dsimp only
  rw [set_middle hmajors]
  refine ⟨⟨hs.toValid.replace hmajors hvalid rfl rfl hinuse, ?_, ?_⟩,
    ⟨maj', List.mem_append_right front List.mem_cons_self, rfl⟩, ?_, hpages⟩
  . have hused := hs.used
    rw [hmajors] at hused
    intro m hm
    dsimp only at hm
    rw [List.mem_append, List.mem_cons] at hm
    obtain hm | rfl | hm := hm
    . exact hused m (List.mem_append_left _ hm)
    . exact hne
    . exact hused m (List.mem_append_right _ (List.mem_cons_of_mem _ hm))
  . have howns := hs.owns
    rw [← hpages] at howns
    exact howns
  . have hins : Inserts maj'.live min.block maj.live := by
      refine ⟨before.map Minor.block, behind.map Minor.block, List.map_append, ?_⟩
      unfold Major.live
      rw [hminors, List.map_append, List.map_cons]
    have hlive := live_split (h := { h with majors := front ++ maj' :: back }) rfl
    rw [live_split hmajors]
    exact hlive ▸ hins.append (front.flatMap Major.live) (back.flatMap Major.live)

/--
What a call of `free` with a pointer that has been handed out makes of the heap: the block is gone, and so are the
pages of its major block if it was the last one in it.
-/
theorem free_spec (hP : P.Lawful Owns) (hs : h.Sound Owns) (hlive : p ∈ h.live.map Prod.fst)
    : ∃ n h', free P (some p) h = .ok h' ∧ h'.Sound Owns ∧ Inserts h'.live (p, n) h.live
        ∧ (h'.system = h.system ∧ h'.pages = h.pages ∨ ∃ r, Inserts h'.pages r h.pages) := by
  obtain ⟨front, maj, back, min, hmajors, hmin, hpointer, hblock⟩ := blockOf_of_live hlive
  obtain ⟨before, behind, _, hminors, herase⟩ := List.exists_erase_eq hmin
  have hp : min.block = (p, min.reqSize) := by
    unfold Minor.block
    rw [hpointer]
  refine ⟨min.reqSize, ?_⟩
  rw [← hp]
  unfold free
  dsimp only
  rw [hblock]
  dsimp only
  rw [herase]
  by_cases hnil : before ++ behind = []
  . have hboth := List.append_eq_nil_iff.mp hnil
    have hpages : h.pages = (front.map fun maj => (maj.addr, maj.pages))
        ++ (maj.addr, maj.pages) :: back.map fun maj => (maj.addr, maj.pages) := by
      unfold pages
      rw [hmajors, List.map_append, List.map_cons]
    have howns := hs.owns
    rw [hpages] at howns
    obtain ⟨s, hfree, howns⟩ := hP.free howns
    rw [← List.map_append] at howns
    have hminors' : maj.minors = [min] := by
      rw [hminors, hboth.1, hboth.2]
      rfl
    obtain ⟨hsound, hins, hpages⟩ := hs.remove hmajors hminors' howns
    rw [if_pos hnil, hfree]
    exact ⟨_, rfl, hsound, hins, .inr ⟨_, hpages⟩⟩
  . obtain ⟨hsound, hmem, hins, hpages⟩ := hs.shrink hmajors hminors hnil
    rw [if_neg hnil]
    split
    . exact ⟨_, rfl, hsound, hins, .inl ⟨rfl, hpages⟩⟩
    . next bet hbet =>
      obtain ⟨m, hm, haddr⟩ := hsound.bet bet hbet
      have hfound : ∃ best, List.find? (fun x : Major => decide (x.addr = bet)) _ = some best :=
        Option.isSome_iff_exists.mp (List.find?_isSome.mpr ⟨m, hm, decide_eq_true haddr⟩)
      obtain ⟨best, hmajorAt⟩ := hfound
      unfold majorAt
      dsimp only at hmajorAt ⊢
      rw [hmajorAt]
      dsimp only
      split
      . exact ⟨_, rfl, hsound.setBet (.inr hmem), hins, .inl ⟨rfl, hpages⟩⟩
      . exact ⟨_, rfl, hsound, hins, .inl ⟨rfl, hpages⟩⟩

end Heap

end Liballoc

end Emos
