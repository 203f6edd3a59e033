import Emos.Kernel.Fat.Impl.Util
import Emos.Kernel.Fat.Lemmas.Util
import Emos.Lib.Loop

/-!
This module contains how the access functions of the kernel's FAT driver treat the blocks that they
fetch, whichever calls of `fetch` fail, and what this means for the copies of the table.
-/

open Lib

namespace Emos

namespace BlockEvent

def lba : BlockEvent → Nat
  | fetch lba => lba
  | release lba _ => lba

end BlockEvent

namespace BlockCache

/--
A block was not touched, or it was fetched and then released, both once.
-/
def Settled (new : List BlockEvent) : Prop :=
  ∀ lba, new.filter (·.lba = lba) = []
    ∨ ∃ dirty, new.filter (·.lba = lba) = [.release lba dirty, .fetch lba]

/--
What a call leaves behind: the blocks that it fetched are released. It failed without a change, or
the blocks that it changed were released as dirty.
-/
structure Keeps (c c' : BlockCache) (r : Except Status α) (new : List BlockEvent) : Prop where
  events : c'.events = new ++ c.events
  settled : Settled new
  failed : ∀ status, r = .error status
    → (∀ lba, .release lba true ∉ new) ∧ c'.block = c.block
  dirty : ∀ lba, c'.block lba ≠ c.block lba → .release lba true ∈ new

theorem settled_nil : Settled [] := fun _ => .inl rfl

theorem settled_one (lba : Nat) (dirty : Bool) : Settled [.release lba dirty, .fetch lba] := by
  intro l
  by_cases h : lba = l
  . subst h
    exact .inr ⟨dirty, by simp [BlockEvent.lba]⟩
  . exact .inl (by simp [BlockEvent.lba, h])

theorem settled_two {lba lba2 : Nat} (dirty : Bool) (h : lba ≠ lba2)
    : Settled [.release lba dirty, .release lba2 dirty, .fetch lba2, .fetch lba] := by
  intro l
  by_cases h1 : lba = l
  . subst h1
    exact .inr ⟨dirty, by simp [BlockEvent.lba, h.symm]⟩
  . by_cases h2 : lba2 = l
    . subst h2
      exact .inr ⟨dirty, by simp [BlockEvent.lba, h]⟩
    . exact .inl (by simp [BlockEvent.lba, h1, h2])

theorem fetch_cases (c : BlockCache) (lba : Nat)
    : (∃ status, c.fetch lba = ⟨.error status, { c with fetchCount := c.fetchCount + 1 }⟩)
        ∨
      c.fetch lba
        = ⟨.ok (), { c with fetchCount := c.fetchCount + 1, events := .fetch lba :: c.events }⟩ := by
  unfold fetch
  split
  . next status _ => exact .inl ⟨status, rfl⟩
  . exact .inr rfl

end BlockCache

theorem FatData.fatLba_succ_ne (d : FatData) (fat : Int) (i : Nat)
    : d.fatLba fat i ≠ d.fatLba fat (i + 1) := by
  unfold fatLba u32
  omega

theorem divide_eq_ok {a b q : Nat} (h : divide a b = .ok q) : 0 < b ∧ q = a / b := by
  unfold divide at h
  split at h
  . contradiction
  . next hb =>
    cases h
    exact ⟨by omega, rfl⟩

variable {d : FatData} {c c' : BlockCache} {fat : Int} {entry value : Nat}

theorem BlockCache.keeps_of_error {α : Type} (c : BlockCache) (status : Status) (n : Nat)
    : ∃ new, c.Keeps { c with fetchCount := n } (.error status : Except Status α) new :=
  ⟨[], rfl, settled_nil, fun _ _ => ⟨by simp, rfl⟩, by simp⟩

theorem readFatEntry12_keeps {r : Except Status Nat} (h : readFatEntry12 d c fat entry = .ok ⟨r, c'⟩)
    : ∃ new, c.Keeps c' r new := by
  unfold readFatEntry12 at h
  split at h
  . cases h
    exact c.keeps_of_error _ c.fetchCount
  . rw [bind_eq_ok] at h
    obtain ⟨sector, -, h⟩ := h
    dsimp only at h
    obtain ⟨status, hfetch⟩ | hfetch := c.fetch_cases (d.fatLba fat sector)
    . rw [hfetch] at h
      cases h
      exact c.keeps_of_error status _
    . rw [hfetch] at h
      dsimp only at h
      split at h
      . cases h
        exact ⟨[.release _ false, .fetch _], rfl, BlockCache.settled_one _ _, by simp,
          by simp [BlockCache.release]⟩
      . obtain ⟨status, hfetch2⟩ | hfetch2 := BlockCache.fetch_cases
          { c with fetchCount := c.fetchCount + 1, events := .fetch (d.fatLba fat sector) :: c.events }
          (d.fatLba fat (sector + 1))
        . rw [hfetch2] at h
          cases h
          exact ⟨[.release _ false, .fetch _], rfl, BlockCache.settled_one _ _,
            fun _ _ => ⟨by simp, rfl⟩, by simp [BlockCache.release]⟩
        . rw [hfetch2] at h
          cases h
          exact ⟨[.release _ false, .release _ false, .fetch _, .fetch _], rfl,
            BlockCache.settled_two false (d.fatLba_succ_ne fat sector), by simp,
            by simp [BlockCache.release]⟩

theorem writeFatEntry12_keeps {r : Except Status Unit}
    (h : writeFatEntry12 d c fat entry value = .ok ⟨r, c'⟩)
    : ∃ new, c.Keeps c' r new := by
  unfold writeFatEntry12 at h
  split at h
  . cases h
    exact c.keeps_of_error _ c.fetchCount
  split at h
  . cases h
    exact c.keeps_of_error _ c.fetchCount
  . rw [bind_eq_ok] at h
    obtain ⟨sector, -, h⟩ := h
    dsimp only at h
    obtain ⟨status, hfetch⟩ | hfetch := c.fetch_cases (d.fatLba fat sector)
    . rw [hfetch] at h
      cases h
      exact c.keeps_of_error status _
    . rw [hfetch] at h
      dsimp only at h
      split at h
      . obtain ⟨status, hfetch2⟩ | hfetch2 := BlockCache.fetch_cases
          { c with fetchCount := c.fetchCount + 1, events := .fetch (d.fatLba fat sector) :: c.events }
          (d.fatLba fat (sector + 1))
        . rw [hfetch2] at h
          cases h
          exact ⟨[.release _ false, .fetch _], rfl, BlockCache.settled_one _ _,
            fun _ _ => ⟨by simp, rfl⟩, by simp [BlockCache.release]⟩
        . rw [hfetch2] at h
          cases h
          refine ⟨[.release _ true, .release _ true, .fetch _, .fetch _], rfl,
            BlockCache.settled_two true (d.fatLba_succ_ne fat sector), nofun, ?_⟩
          intro lba hne
          by_contra hmem
          simp only [List.mem_cons, BlockEvent.release.injEq, and_true, not_or] at hmem
          apply hne
          simp [BlockCache.release, BlockCache.put, hmem.1, hmem.2.1]
      . cases h
        refine ⟨[.release _ true, .fetch _], rfl, BlockCache.settled_one _ _, nofun, ?_⟩
        intro lba hne
        by_contra hmem
        simp only [List.mem_cons, BlockEvent.release.injEq, and_true, not_or] at hmem
        apply hne
        simp [BlockCache.release, BlockCache.put, hmem.1]

section FatWord

variable {maxCluster endCluster width : Nat}

theorem fetchFatWord_cases {r : Except Status (Nat × Nat)}
    (h : fetchFatWord maxCluster width d c fat entry = .ok ⟨r, c'⟩)
    : (∃ status n, r = .error status ∧ c' = { c with fetchCount := n })
        ∨
      ∃ lba pos n, r = .ok ⟨lba, pos⟩
        ∧ c' = { c with fetchCount := n, events := .fetch lba :: c.events } := by
  unfold fetchFatWord at h
  split at h
  . cases h
    exact .inl ⟨_, _, rfl, rfl⟩
  . rw [bind_eq_ok] at h
    obtain ⟨sector, -, h⟩ := h
    dsimp only at h
    obtain ⟨status, hfetch⟩ | hfetch := c.fetch_cases (d.fatLba fat sector)
    . rw [hfetch] at h
      cases h
      exact .inl ⟨_, _, rfl, rfl⟩
    . rw [hfetch] at h
      cases h
      exact .inr ⟨_, _, _, rfl, rfl⟩

theorem readFatWord_keeps {f : Nat → Nat} {r : Except Status Nat}
    (h : readFatWord maxCluster width f d c fat entry = .ok ⟨r, c'⟩)
    : ∃ new, c.Keeps c' r new := by
  unfold readFatWord at h
  rw [bind_eq_ok] at h
  obtain ⟨⟨r1, c1⟩, hword, h⟩ := h
  obtain ⟨status, n, rfl, rfl⟩ | ⟨lba, pos, n, rfl, rfl⟩ := fetchFatWord_cases hword
  . cases h
    exact c.keeps_of_error status n
  . cases h
    exact ⟨[.release lba false, .fetch lba], rfl, BlockCache.settled_one _ _, by simp,
      by simp [BlockCache.release]⟩

theorem writeFatWord_keeps {f : Nat → Nat → Nat} {r : Except Status Unit}
    (h : writeFatWord maxCluster endCluster width f d c fat entry value = .ok ⟨r, c'⟩)
    : ∃ new, c.Keeps c' r new := by
  unfold writeFatWord at h
  split at h
  . cases h
    exact c.keeps_of_error _ c.fetchCount
  rw [bind_eq_ok] at h
  obtain ⟨⟨r1, c1⟩, hword, h⟩ := h
  obtain ⟨status, n, rfl, rfl⟩ | ⟨lba, pos, n, rfl, rfl⟩ := fetchFatWord_cases hword
  . cases h
    exact c.keeps_of_error status n
  . cases h
    refine ⟨[.release lba true, .fetch lba], rfl, BlockCache.settled_one _ _, nofun, ?_⟩
    intro l hne
    by_contra hmem
    simp only [List.mem_cons, BlockEvent.release.injEq, and_true, not_or] at hmem
    apply hne
    simp [BlockCache.release, BlockCache.putWord, hmem.1]

end FatWord

namespace FatType

theorem readFatEntry_keeps {w : FatType} {r : Except Status Nat}
    (h : w.readFatEntry d c fat entry = .ok ⟨r, c'⟩)
    : ∃ new, c.Keeps c' r new := by
  cases w with
  | fat12 => exact readFatEntry12_keeps h
  | fat16 =>
    simp only [readFatEntry, readFatEntry16] at h
    exact readFatWord_keeps h
  | fat32 =>
    simp only [readFatEntry, readFatEntry32] at h
    exact readFatWord_keeps h

theorem writeFatEntry_keeps {w : FatType} {r : Except Status Unit}
    (h : w.writeFatEntry d c fat entry value = .ok ⟨r, c'⟩)
    : ∃ new, c.Keeps c' r new := by
  cases w with
  | fat12 => exact writeFatEntry12_keeps h
  | fat16 =>
    simp only [writeFatEntry, writeFatEntry16] at h
    exact writeFatWord_keeps h
  | fat32 =>
    simp only [writeFatEntry, writeFatEntry32] at h
    exact writeFatWord_keeps h

end FatType

/-
A call that succeeds does the same where no call of `fetch` fails.
-/

/--
The same blocks in a cache that never fails.
-/
def BlockCache.reliable (c : BlockCache) : BlockCache := { c with fails := fun _ => none }

theorem BlockCache.reliable_reliable (c : BlockCache) : c.reliable.Reliable := fun _ => rfl

theorem writeFatEntry12_reliable (h : writeFatEntry12 d c fat entry value = .ok ⟨.ok (), c'⟩)
    : writeFatEntry12 d c.reliable fat entry value = .ok ⟨.ok (), c'.reliable⟩ := by
  unfold writeFatEntry12 at h ⊢
  split at h
  . cases h
  next hvalue =>
  rw [if_neg hvalue]
  split at h
  . cases h
  next haccepts =>
  rw [if_neg haccepts]
  rw [bind_eq_ok] at h ⊢
  obtain ⟨sector, hsector, h⟩ := h
  refine ⟨sector, hsector, ?_⟩
  dsimp only at h ⊢
  rw [c.reliable_reliable.fetch_eq]
  obtain ⟨status, hfetch⟩ | hfetch := c.fetch_cases (d.fatLba fat sector)
  . rw [hfetch] at h
    cases h
  . rw [hfetch] at h
    dsimp only at h ⊢
    split at h
    . next hlast =>
      rw [if_pos hlast]
      obtain ⟨status, hfetch2⟩ | hfetch2 := BlockCache.fetch_cases
        { c with fetchCount := c.fetchCount + 1, events := .fetch (d.fatLba fat sector) :: c.events }
        (d.fatLba fat (sector + 1))
      . rw [hfetch2] at h
        cases h
      . rw [hfetch2] at h
        rw [BlockCache.Reliable.fetch_eq]
        . cases h
          rfl
        . exact c.reliable_reliable
    . next hin =>
      rw [if_neg hin]
      cases h
      rfl

theorem fetchFatWord_reliable {maxCluster width lba pos : Nat}
    (h : fetchFatWord maxCluster width d c fat entry = .ok ⟨.ok ⟨lba, pos⟩, c'⟩)
    : fetchFatWord maxCluster width d c.reliable fat entry = .ok ⟨.ok ⟨lba, pos⟩, c'.reliable⟩ := by
  unfold fetchFatWord at h ⊢
  split at h
  . cases h
  next haccepts =>
  rw [if_neg haccepts]
  rw [bind_eq_ok] at h ⊢
  obtain ⟨sector, hsector, h⟩ := h
  refine ⟨sector, hsector, ?_⟩
  dsimp only at h ⊢
  rw [c.reliable_reliable.fetch_eq]
  obtain ⟨status, hfetch⟩ | hfetch := c.fetch_cases (d.fatLba fat sector)
  . rw [hfetch] at h
    cases h
  . rw [hfetch] at h
    cases h
    rfl

theorem writeFatWord_reliable {maxCluster endCluster width : Nat} {f : Nat → Nat → Nat}
    (h : writeFatWord maxCluster endCluster width f d c fat entry value = .ok ⟨.ok (), c'⟩)
    : writeFatWord maxCluster endCluster width f d c.reliable fat entry value
        =
      .ok ⟨.ok (), c'.reliable⟩ := by
  unfold writeFatWord at h ⊢
  split at h
  . cases h
  next hvalue =>
  rw [if_neg hvalue]
  rw [bind_eq_ok] at h ⊢
  obtain ⟨⟨r1, c1⟩, hword, h⟩ := h
  obtain ⟨status, n, rfl, -⟩ | ⟨lba, pos, n, rfl, -⟩ := fetchFatWord_cases hword
  . cases h
  . refine ⟨_, fetchFatWord_reliable hword, ?_⟩
    cases h
    rfl

namespace FatType

variable {w : FatType}

theorem writeFatEntry_reliable (h : w.writeFatEntry d c fat entry value = .ok ⟨.ok (), c'⟩)
    : w.writeFatEntry d c.reliable fat entry value = .ok ⟨.ok (), c'.reliable⟩ := by
  cases w with
  | fat12 => exact writeFatEntry12_reliable h
  | fat16 =>
    simp only [writeFatEntry, writeFatEntry16] at h ⊢
    exact writeFatWord_reliable h
  | fat32 =>
    simp only [writeFatEntry, writeFatEntry32] at h ⊢
    exact writeFatWord_reliable h

theorem accepted_of_fetchFatWord {maxCluster width lba pos : Nat}
    (h : fetchFatWord maxCluster width d c fat entry = .ok ⟨.ok ⟨lba, pos⟩, c'⟩)
    : d.accepts maxCluster fat entry = true := by
  unfold fetchFatWord at h
  split at h
  . cases h
  . next haccepts => simpa using haccepts

theorem accepted_of_writeFatWord {maxCluster endCluster width : Nat} {f : Nat → Nat → Nat}
    (h : writeFatWord maxCluster endCluster width f d c fat entry value = .ok ⟨.ok (), c'⟩)
    : value ≤ endCluster ∧ d.accepts maxCluster fat entry = true := by
  unfold writeFatWord at h
  split at h
  . cases h
  next hvalue =>
  rw [bind_eq_ok] at h
  obtain ⟨⟨r1, c1⟩, hword, h⟩ := h
  obtain ⟨status, n, rfl, -⟩ | ⟨lba, pos, n, rfl, -⟩ := fetchFatWord_cases hword
  . cases h
  . exact ⟨by omega, accepted_of_fetchFatWord hword⟩

theorem accepted_of_writeFatEntry (h : w.writeFatEntry d c fat entry value = .ok ⟨.ok (), c'⟩)
    : value ≤ w.endCluster ∧ d.accepts w.maxCluster fat entry = true := by
  cases w with
  | fat12 =>
    simp only [writeFatEntry, writeFatEntry12] at h
    split at h
    . cases h
    next hvalue =>
    split at h
    . cases h
    next haccepts =>
    refine ⟨by simp only [endCluster]; omega, ?_⟩
    simp only [maxCluster]
    simpa using haccepts
  | fat16 =>
    simp only [writeFatEntry, writeFatEntry16] at h
    exact accepted_of_writeFatWord h
  | fat32 =>
    simp only [writeFatEntry, writeFatEntry32] at h
    exact accepted_of_writeFatWord h

theorem accepts_iff {maxCluster fat : Nat}
    : d.accepts maxCluster fat entry = true ↔ entry ≤ maxCluster ∧ fat < d.fatCount := by
  unfold FatData.accepts
  simp

theorem table_of_writeFatEntry {fat : Nat} (hd : d.WellFormed) (hw : w.Aligned d)
    (hsize : w.entryEnd entry ≤ d.tableSize)
    (h : w.writeFatEntry d c fat entry value = .ok ⟨.ok (), c'⟩)
    {fat' k : Nat} (hfat' : fat' < d.fatCount) (hk : k < d.tableSize)
    : d.table c' fat' k
        =
      if fat' = fat then w.setEntry (d.table c fat) entry value k else d.table c fat' k := by
  obtain ⟨hvalue, haccepts⟩ := accepted_of_writeFatEntry h
  obtain ⟨hentry, hfat⟩ := accepts_iff.1 haccepts
  obtain ⟨c'', hwrite, -, htable⟩ :=
    w.writeFatEntry_eq hd hw c.reliable_reliable hfat hentry hsize hvalue
  rw [writeFatEntry_reliable h] at hwrite
  cases hwrite
  exact htable fat' k hfat' hk

theorem setEntry_congr {t t' : Bytes} {size k : Nat} (h : ∀ i, i < size → t' i = t i)
    (hsize : w.entryEnd entry ≤ size) (hk : k < size)
    : w.setEntry t' entry value k = w.setEntry t entry value k := by
  cases w with
  | fat12 =>
    simp only [entryEnd] at hsize
    simp only [setEntry, Packed12.set, Packed12.bytesOf]
    rw [h _ (show Packed12.index entry < size by omega)]
    rw [h _ (show Packed12.index entry + 1 < size by omega)]
    simp only [Function.update_apply, h k hk]
  | fat16 =>
    simp only [setEntry]
    rw [Bytes.write_apply, Bytes.write_apply, h k hk]
  | fat32 =>
    simp only [entryEnd] at hsize
    have hread : Bytes.read t' (entry * 4) 4 = Bytes.read t (entry * 4) 4 :=
      Bytes.read_congr fun i hi => h _ (by omega)
    simp only [setEntry]
    rw [hread, Bytes.write_apply, Bytes.write_apply, h k hk]

end FatType

namespace FatData

variable {w : FatType}

/--
The first `k` copies of the table are written one after the other.
-/
def Written (d : FatData) (w : FatType) (entry value : Nat) : Nat → BlockCache → BlockCache → Prop
  | 0, c, c' => c' = c
  | k + 1, c, c' => ∃ c1, d.Written w entry value k c c1
      ∧ w.writeFatEntry d c1 k entry value = .ok ⟨.ok (), c'⟩

theorem Written.functional {k : Nat} {c1 c2 : BlockCache} (h1 : d.Written w entry value k c c1)
    (h2 : d.Written w entry value k c c2)
    : c1 = c2 := by
  induction k generalizing c1 c2 with
  | zero => exact h1.trans h2.symm
  | succ k ih =>
    obtain ⟨u1, hu1, h1⟩ := h1
    obtain ⟨u2, hu2, h2⟩ := h2
    rw [ih hu1 hu2, h2] at h1
    cases h1
    rfl

theorem Written.of_le {i k : Nat} (h : d.Written w entry value k c c') (hi : i ≤ k)
    : ∃ c1, d.Written w entry value i c c1 := by
  induction k generalizing c' with
  | zero =>
    rw [Nat.le_zero.mp hi]
    exact ⟨c, rfl⟩
  | succ k ih =>
    by_cases heq : i = k + 1
    . subst heq
      exact ⟨c', h⟩
    . obtain ⟨c1, h1, _⟩ := h
      exact ih h1 (by omega)

theorem Written.table {k : Nat} (hd : d.WellFormed) (hw : w.Aligned d)
    (hsize : w.entryEnd entry ≤ d.tableSize) (h : d.Written w entry value k c c')
    {fat i : Nat} (hfat : fat < d.fatCount) (hi : i < d.tableSize)
    : d.table c' fat i
        =
      if fat < k then w.setEntry (d.table c fat) entry value i else d.table c fat i := by
  induction k generalizing c' i with
  | zero =>
    cases h
    simp
  | succ k ih =>
    obtain ⟨c1, h1, hwrite⟩ := h
    rw [FatType.table_of_writeFatEntry hd hw hsize hwrite hfat hi]
    split
    . next heq =>
      subst heq
      rw [if_pos (by omega)]
      apply FatType.setEntry_congr ?_ hsize hi
      intro j hj
      rw [ih h1 hj, if_neg (by omega)]
    . rw [ih h1 hi]
      split
      . rw [if_pos (by omega)]
      . rw [if_neg (by omega)]

theorem writeCopies_cases {n i : Nat} {c1 : BlockCache} {r : Except Status Unit}
    (hpre : d.Written w entry value i c c1)
    (h : d.writeCopies w entry value n i c1 = .ok ⟨r, c'⟩)
    : (r = .ok () ∧ d.Written w entry value (i + n) c c')
        ∨
      r = .error .fsInconsistent ∧ ∃ k ck status, i ≤ k ∧ k < i + n
        ∧ d.Written w entry value k c ck
        ∧ w.writeFatEntry d ck k entry value = .ok ⟨.error status, c'⟩ := by
  induction n generalizing i c1 with
  | zero =>
    cases h
    exact .inl ⟨rfl, hpre⟩
  | succ n ih =>
    unfold writeCopies at h
    rw [bind_eq_ok] at h
    obtain ⟨⟨r1, c2⟩, hwrite, h⟩ := h
    cases r1 with
    | error status =>
      cases h
      exact .inr ⟨rfl, i, c1, status, by omega, by omega, hpre, hwrite⟩
    | ok _ =>
      have hnext : d.Written w entry value (i + 1) c c2 := ⟨c1, hpre, hwrite⟩
      obtain ⟨hr, hall⟩ | ⟨hr, k, ck, status, hik, hkn, hk, hfail⟩ := ih hnext h
      . exact .inl ⟨hr, by rwa [show i + (n + 1) = i + 1 + n by omega]⟩
      . exact .inr ⟨hr, k, ck, status, by omega, by omega, hk, hfail⟩

theorem writeCopies_of_failure {n i k : Nat} {c1 ck : BlockCache} {status : Status}
    (hpre : d.Written w entry value i c c1) (hik : i ≤ k) (hkn : k < i + n)
    (hk : d.Written w entry value k c ck)
    (hfail : w.writeFatEntry d ck k entry value = .ok ⟨.error status, c'⟩)
    : d.writeCopies w entry value n i c1 = .ok ⟨.error .fsInconsistent, c'⟩ := by
  induction n generalizing i c1 with
  | zero => omega
  | succ n ih =>
    unfold writeCopies
    rw [bind_eq_ok]
    by_cases heq : k = i
    . subst heq
      rw [hk.functional hpre] at hfail
      exact ⟨_, hfail, rfl⟩
    . obtain ⟨c2, hnext⟩ := hk.of_le (show i + 1 ≤ k by omega)
      have hnext' := hnext
      obtain ⟨c1', hpre', hwrite⟩ := hnext'
      rw [hpre'.functional hpre] at hwrite
      exact ⟨_, hwrite, ih hnext (by omega) (by omega)⟩

end FatData

namespace FatType

/--
The number of bytes that a sector must have for an entry to be looked up in it.
-/
def width : FatType → Nat
  | .fat12 => 1
  | .fat16 => 2
  | .fat32 => 4

def valueAt (w : FatType) (t : Bytes) (entry : Nat) : Nat :=
  match w with
  | .fat12 | .fat16 => w.entryAt t entry
  | .fat32 => w.entryAt t entry % 2 ^ 28

variable {w : FatType}

theorem valueAt_setEntry {t : Bytes} (hvalue : value ≤ w.endCluster)
    : w.valueAt (w.setEntry t entry value) entry = value := by
  unfold valueAt
  rw [entryAt_setEntry_self hvalue]
  cases w with
  | fat12 => rfl
  | fat16 => rfl
  | fat32 =>
    simp only [endCluster, fat32EndCluster] at hvalue
    dsimp only
    lia

section Returns

variable {maxCluster endCluster width : Nat}

theorem fetchFatWord_returns (maxCluster entry : Nat) (d : FatData) (c : BlockCache) (fat : Int)
    (h : 0 < d.sectorSize / width)
    : ∃ r, fetchFatWord maxCluster width d c fat entry = .ok r := by
  unfold fetchFatWord
  rw [divide_of_pos h]
  dsimp only [bind, Except.bind]
  split
  . exact ⟨_, rfl⟩
  split
  . exact ⟨_, rfl⟩
  . exact ⟨_, rfl⟩

theorem readFatWord_returns {f : Nat → Nat} (h : 0 < d.sectorSize / width)
    : ∃ r, readFatWord maxCluster width f d c fat entry = .ok r := by
  obtain ⟨⟨r, c'⟩, hr⟩ := fetchFatWord_returns maxCluster entry d c fat h
  unfold readFatWord
  rw [hr]
  dsimp only [bind, Except.bind]
  split
  . exact ⟨_, rfl⟩
  . exact ⟨_, rfl⟩

theorem writeFatWord_returns {f : Nat → Nat → Nat} (h : 0 < d.sectorSize / width)
    : ∃ r, writeFatWord maxCluster endCluster width f d c fat entry value = .ok r := by
  obtain ⟨⟨r, c'⟩, hr⟩ := fetchFatWord_returns maxCluster entry d c fat h
  unfold writeFatWord
  rw [hr]
  dsimp only [bind, Except.bind]
  split
  . exact ⟨_, rfl⟩
  split
  . exact ⟨_, rfl⟩
  . exact ⟨_, rfl⟩

end Returns

theorem readFatEntry_returns (entry : Nat) (c : BlockCache) (fat : Int) (h : w.width ≤ d.sectorSize)
    : ∃ r, w.readFatEntry d c fat entry = .ok r := by
  cases w with
  | fat12 =>
    simp only [readFatEntry, readFatEntry12]
    rw [divide_of_pos h]
    dsimp only [bind, Except.bind]
    split
    . exact ⟨_, rfl⟩
    split
    . exact ⟨_, rfl⟩
    split
    . exact ⟨_, rfl⟩
    split
    . exact ⟨_, rfl⟩
    . exact ⟨_, rfl⟩
  | fat16 =>
    simp only [readFatEntry, readFatEntry16]
    exact readFatWord_returns (Nat.div_pos h (by decide))
  | fat32 =>
    simp only [readFatEntry, readFatEntry32]
    exact readFatWord_returns (Nat.div_pos h (by decide))

theorem writeFatEntry_returns (entry value : Nat) (c : BlockCache) (fat : Int)
    (h : w.width ≤ d.sectorSize)
    : ∃ r, w.writeFatEntry d c fat entry value = .ok r := by
  cases w with
  | fat12 =>
    simp only [writeFatEntry, writeFatEntry12]
    rw [divide_of_pos h]
    dsimp only [bind, Except.bind]
    split
    . exact ⟨_, rfl⟩
    split
    . exact ⟨_, rfl⟩
    split
    . exact ⟨_, rfl⟩
    split
    . split
      . exact ⟨_, rfl⟩
      . exact ⟨_, rfl⟩
    . exact ⟨_, rfl⟩
  | fat16 =>
    simp only [writeFatEntry, writeFatEntry16]
    exact writeFatWord_returns (Nat.div_pos h (by decide))
  | fat32 =>
    simp only [writeFatEntry, writeFatEntry32]
    exact writeFatWord_returns (Nat.div_pos h (by decide))

end FatType

namespace FatData

variable {w : FatType}

theorem writeCopies_returns (entry value n i : Nat) (c : BlockCache) (h : w.width ≤ d.sectorSize)
    : ∃ r, d.writeCopies w entry value n i c = .ok r := by
  induction n generalizing i c with
  | zero => exact ⟨_, rfl⟩
  | succ n ih =>
    obtain ⟨⟨r, c'⟩, hr⟩ := w.writeFatEntry_returns entry value c i h
    unfold writeCopies
    rw [hr]
    cases r with
    | error status => exact ⟨_, rfl⟩
    | ok _ => exact ih (i + 1) c'

theorem writeFatEntry_returns (entry value : Nat) (c : BlockCache) (h : w.width ≤ d.sectorSize)
    : ∃ r, d.writeFatEntry (some w) c entry value = .ok r := by
  obtain ⟨⟨r, c'⟩, hr⟩ := w.writeFatEntry_returns entry value c 0 h
  unfold writeFatEntry
  dsimp only
  rw [hr]
  cases r with
  | error status => exact ⟨_, rfl⟩
  | ok _ => exact d.writeCopies_returns entry value _ 1 c' h

theorem writeFatEntry_of_first_error {status : Status} {c1 : BlockCache}
    (h : w.writeFatEntry d c 0 entry value = .ok ⟨.error status, c1⟩)
    : d.writeFatEntry (some w) c entry value = .ok ⟨.error status, c1⟩ := by
  unfold writeFatEntry
  dsimp only
  rw [h]
  rfl

theorem writeFatEntry_of_first_ok {c1 : BlockCache}
    (h : w.writeFatEntry d c 0 entry value = .ok ⟨.ok (), c1⟩)
    : d.writeFatEntry (some w) c entry value
        =
      d.writeCopies w entry value (d.fatCount - 1) 1 c1 := by
  unfold writeFatEntry
  dsimp only
  rw [h]
  rfl

theorem writeFatEntry_cases {c1 : BlockCache} {r : Except Status Unit}
    (h1 : w.writeFatEntry d c 0 entry value = .ok ⟨.ok (), c1⟩)
    (h : d.writeFatEntry (some w) c entry value = .ok ⟨r, c'⟩)
    : (r = .ok () ∧ d.Written w entry value d.fatCount c c')
        ∨
      r = .error .fsInconsistent ∧ ∃ k ck status, 1 ≤ k ∧ k < d.fatCount
        ∧ d.Written w entry value k c ck
        ∧ w.writeFatEntry d ck k entry value = .ok ⟨.error status, c'⟩ := by
  have hfat := (FatType.accepts_iff.mp (FatType.accepted_of_writeFatEntry h1).2).2
  rw [writeFatEntry_of_first_ok h1] at h
  have hcases := writeCopies_cases (show d.Written w entry value 1 c c1 from ⟨c, rfl, h1⟩) h
  rwa [show 1 + (d.fatCount - 1) = d.fatCount by lia] at hcases

theorem Written.mirrors (hd : d.WellFormed) (hw : w.Aligned d)
    (hsize : w.entryEnd entry ≤ d.tableSize) (hvalue : value ≤ w.endCluster)
    (h : d.Written w entry value d.fatCount c c')
    : (∀ i < d.fatCount, w.valueAt (d.table c' i) entry = value)
        ∧ ∀ i < d.fatCount, ∀ j < d.fatCount,
          (∀ k < d.tableSize, d.table c i k = d.table c j k)
            → ∀ k < d.tableSize, d.table c' i k = d.table c' j k := by
  have htable : ∀ i, i < d.fatCount → ∀ k, k < d.tableSize
      → d.table c' i k = w.setEntry (d.table c i) entry value k := by
    intro i hi k hk
    rw [h.table hd hw hsize hi hk, if_pos hi]
  constructor
  . intro i hi
    have hself : w.valueAt (w.setEntry (d.table c i) entry value) entry = value :=
      FatType.valueAt_setEntry hvalue
    rw [← hself]
    unfold FatType.valueAt
    rw [FatType.entryAt_congr (htable i hi) hsize]
  . intro i hi j hj hsame k hk
    rw [htable i hi k hk, htable j hj k hk]
    exact FatType.setEntry_congr hsame hsize hk

end FatData

/--
Whichever calls of `fetch` fail, the access functions release what they fetched and a failed write
changes nothing. `write_fat_entry` succeeds only with all copies written, passes on the error of the
first copy and says so if a later copy was not written.
-/
theorem fat_update_discipline (w : FatType) (d : FatData) (c : BlockCache) (fat : Int)
    (entry value : Nat)
    : (∀ r c', w.readFatEntry d c fat entry = .ok ⟨r, c'⟩ → ∃ new, c.Keeps c' r new)
        ∧ (∀ r c', w.writeFatEntry d c fat entry value = .ok ⟨r, c'⟩ → ∃ new, c.Keeps c' r new)
        ∧ (∀ r c', d.writeFatEntry (some w) c entry value = .ok ⟨r, c'⟩
            → (∀ status c1, w.writeFatEntry d c 0 entry value = .ok ⟨.error status, c1⟩
                → r = .error status ∧ c'.block = c.block)
              ∧ (∀ c1, w.writeFatEntry d c 0 entry value = .ok ⟨.ok (), c1⟩
                → (r = .ok () ∨ r = .error .fsInconsistent)
                  ∧ (r = .error .fsInconsistent ↔ ∃ k ck status c2, 1 ≤ k ∧ k < d.fatCount
                      ∧ d.Written w entry value k c ck
                      ∧ w.writeFatEntry d ck k entry value = .ok ⟨.error status, c2⟩))
              ∧ (r = .ok () → d.WellFormed → w.Aligned d → w.entryEnd entry ≤ d.tableSize
                → (∀ i < d.fatCount, w.valueAt (d.table c' i) entry = value)
                  ∧ ∀ i < d.fatCount, ∀ j < d.fatCount,
                    (∀ k < d.tableSize, d.table c i k = d.table c j k)
                      → ∀ k < d.tableSize, d.table c' i k = d.table c' j k))
        ∧ (w.width ≤ d.sectorSize
            → (∃ r, w.readFatEntry d c fat entry = .ok r)
              ∧ (∃ r, w.writeFatEntry d c fat entry value = .ok r)
              ∧ ∃ r, d.writeFatEntry (some w) c entry value = .ok r) := by
  refine ⟨fun r c' => FatType.readFatEntry_keeps, fun r c' => FatType.writeFatEntry_keeps, ?_, ?_⟩
  . intro r c' h
    refine ⟨?_, ?_, ?_⟩
    . intro status c1 h1
      rw [FatData.writeFatEntry_of_first_error h1] at h
      cases h
      obtain ⟨new, hkeeps⟩ := FatType.writeFatEntry_keeps h1
      exact ⟨rfl, (hkeeps.failed status rfl).2⟩
    . intro c1 h1
      have hcases := FatData.writeFatEntry_cases h1 h
      constructor
      . cases hcases with
        | inl hok => exact .inl hok.1
        | inr hfailed => exact .inr hfailed.1
      . constructor
        . intro hr
          obtain ⟨hok, -⟩ | ⟨-, k, ck, status, hk, hkn, hwritten, hfail⟩ := hcases
          . rw [hok] at hr
            contradiction
          . exact ⟨k, ck, status, c', hk, hkn, hwritten, hfail⟩
        . intro ⟨k, ck, status, c2, hk, hkn, hwritten, hfail⟩
          rw [FatData.writeFatEntry_of_first_ok h1] at h
          have hfirst : d.Written w entry value 1 c c1 := ⟨c, rfl, h1⟩
          rw [FatData.writeCopies_of_failure hfirst hk (by omega) hwritten hfail] at h
          cases h
          rfl
    . intro hr hd hw hsize
      obtain ⟨⟨r1, c1⟩, h1⟩ := w.writeFatEntry_returns entry value c 0
        (show w.width ≤ d.sectorSize by
          have := hd.sectorSize
          cases w with
          | fat12 => exact Nat.le_of_succ_le this
          | fat16 => exact this
          | fat32 => exact Nat.le_of_dvd (by omega) hw)
      cases r1 with
      | error status =>
        rw [FatData.writeFatEntry_of_first_error h1] at h
        cases h
        contradiction
      | ok _ =>
        obtain ⟨-, hwritten⟩ | ⟨hfailed, -⟩ := FatData.writeFatEntry_cases h1 h
        . exact hwritten.mirrors hd hw hsize (FatType.accepted_of_writeFatEntry h1).1
        . rw [hfailed] at hr
          contradiction
  . intro h
    exact ⟨w.readFatEntry_returns entry c fat h, w.writeFatEntry_returns entry value c fat h,
      d.writeFatEntry_returns entry value c h⟩

/--
Entry 5 has its second byte in another sector, and the fetch of that sector of the second copy
fails.
-/
theorem fat_update_discipline_straddling
    : let d : FatData := { fatCount := 2, reservedSectors := 1, sectorSize := 8, fatSize := 2 }
      let c : BlockCache :=
        { block := fun lba i => BitVec.ofNat 8 (lba + i),
          fails := fun k => if k = 3 then some .unknownError else none,
          fetchCount := 0, events := [] }
      (∃ r c' new, FatType.fat12.writeFatEntry d c 0 5 0xABC = .ok ⟨r, c'⟩ ∧ c.Keeps c' r new)
        ∧ (∃ c', d.writeFatEntry (some .fat12) c 5 0xABC = .ok ⟨.error .fsInconsistent, c'⟩)
        ∧ ∃ c', d.writeFatEntry (some .fat12) c.reliable 5 0xABC = .ok ⟨.ok (), c'⟩
          ∧ ∀ i < 2, FatType.fat12.valueAt (d.table c' i) 5 = 0xABC := by
  intro d c
  have hd : d.WellFormed := ⟨by decide, by decide⟩
  refine ⟨?_, ⟨_, rfl⟩, ⟨_, rfl, ?_⟩⟩
  . obtain ⟨⟨r, c'⟩, h⟩ := ((fat_update_discipline .fat12 d c 0 5 0xABC).2.2.2 (by decide)).2.1
    obtain ⟨new, hkeeps⟩ := (fat_update_discipline .fat12 d c 0 5 0xABC).2.1 r c' h
    exact ⟨r, c', new, h, hkeeps⟩
  . have h := (fat_update_discipline .fat12 d c.reliable 0 5 0xABC).2.2.1 _ _ rfl
    exact (h.2.2 rfl hd trivial (by decide)).1

end Emos
