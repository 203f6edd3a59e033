import Emos.Boot.Core.Lemmas.Path
import Emos.Boot.Stdc.Lemmas.Strtok

/-!
This module contains what `path_normalize` makes of a path.
-/

open Lib Emos.Boot.Stdc

namespace Emos.Boot.Core

/--
The elements of an absolute path that are left behind `element`, where a name is dropped if it does not fit.
-/
def resolveStep (fits : List (List (BitVec 8)) → Bool) (names : List (List (BitVec 8))) (element : List (BitVec 8))
    : List (List (BitVec 8)) :=
  if element = [] then names
  else if element = [dot] then names
  else if element = [dot, dot] then names.dropLast
  else if fits (names ++ [element]) then names ++ [element]
  else names

/--
Dot and dot-dot are resolved with a stack, and dot-dot at the root stays there.
-/
def resolve (elements : List (List (BitVec 8))) : List (List (BitVec 8)) :=
  elements.foldl (resolveStep fun _ => true) []

def prefixOf (filesystem : List (BitVec 8)) : List (BitVec 8) :=
  if filesystem = [] then [] else filesystem ++ [colon]

/--
Names with a separator in front of each of them.
-/
def body (names : List (List (BitVec 8))) : List (BitVec 8) := names.flatMap (slash :: ·)

/--
An absolute path, with a slash at the end if it is the root or `pending` is set.
-/
def absolute (filesystem : List (BitVec 8)) (names : List (List (BitVec 8))) (pending : Bool) : List (BitVec 8) :=
  prefixOf filesystem ++ body names ++ if names = [] ∨ pending then [slash] else []

section Memory

variable {m : Buffer (BitVec 8)} {p j n : Nat} {c : BitVec 8} {text : List (BitVec 8)}

theorem strchr_go_eq (hnot : ∀ k, k < j → m.data (p + k) ≠ c ∧ m.data (p + k) ≠ 0) (hc : m.data (p + j) = c)
    (hlt : p + j < m.size) (hn : j < n) : strchr.go m c n p = .ok (some (p + j)) := by
  induction j generalizing p n with
  | zero =>
    obtain ⟨n, rfl⟩ := Nat.exists_eq_add_one_of_ne_zero (Nat.ne_zero_of_lt hn)
    rw [Nat.add_zero] at hc hlt
    rw [strchr.go, Buffer.get_of_lt hlt, ok_bind, if_pos hc, Nat.add_zero]
  | succ j ih =>
    obtain ⟨n, rfl⟩ := Nat.exists_eq_add_one_of_ne_zero (Nat.ne_zero_of_lt hn)
    have hfirst := hnot 0 (Nat.succ_pos j)
    rw [Nat.add_zero] at hfirst
    have hnext : p + (j + 1) = p + 1 + j := by omega
    rw [hnext] at hc hlt ⊢
    rw [strchr.go, Buffer.get_of_lt (by omega), ok_bind, if_neg hfirst.1, if_neg hfirst.2]
    apply ih _ hc hlt (by omega)
    intro k hk
    have := hnot (k + 1) (by omega)
    rwa [show p + (k + 1) = p + 1 + k by omega] at this

theorem strcpy_eq (hlt : p + text.length < m.size)
    : strcpy m p text = .ok { m with data := Function.update (m.store p text).data (p + text.length) 0 } := by
  induction text generalizing m p with
  | nil => exact Buffer.set_of_lt hlt
  | cons c text ih =>
    rw [List.length_cons] at hlt
    rw [strcpy, Buffer.set_of_lt (by omega), ok_bind, ih (by dsimp only; omega), List.length_cons]
    rw [show p + (text.length + 1) = p + 1 + text.length by omega]
    rfl

theorem holdsString_of_data (hlt : p + text.length < m.size) (hdata : ∀ k (h : k < text.length), m.data (p + k) = text[k])
    (hzero : m.data (p + text.length) = 0) : HoldsString m p text := by
  induction text generalizing p with
  | nil => exact ⟨hlt, hzero⟩
  | cons c text ih =>
    rw [List.length_cons] at hlt hzero
    refine ⟨⟨by omega, hdata 0 (Nat.succ_pos _)⟩, ih (by omega) ?_ ?_⟩
    . intro k hk
      have := hdata (k + 1) (Nat.succ_lt_succ hk)
      rwa [show p + (k + 1) = p + 1 + k by omega] at this
    . rwa [show p + 1 + text.length = p + (text.length + 1) by omega]

end Memory

namespace PathNormalizer

/--
The characters in front of `writePos` are `text`.
-/
structure At (len : Nat) (abs fs : Bool) (text : List (BitVec 8)) (s : PathNormalizer) : Prop where
  size : s.dest.size = len
  isAbsolute : s.isAbsolute = abs
  hasFilesystem : s.hasFilesystem = fs
  pos : s.writePos = text.length
  room : text.length < len
  data : ∀ k (h : k < text.length), s.dest.data k = text[k]

/--
The run ends with `text` written.
-/
def Writes (len : Nat) (abs fs : Bool) (text : List (BitVec 8)) (r : Run PathNormalizer) : Prop :=
  ∃ s, r = .ok s ∧ At len abs fs text s

variable {len limit q j : Nat} {abs fs : Bool} {s : PathNormalizer} {text front rest : List (BitVec 8)} {c : BitVec 8}

theorem Writes.bind {text' : List (BitVec 8)} {r : Run PathNormalizer} {f : PathNormalizer → Run PathNormalizer}
    (h : Writes len abs fs text r) (hf : ∀ s, At len abs fs text s → Writes len abs fs text' (f s))
    : Writes len abs fs text' (r >>= f) := by
  obtain ⟨s, hr, hat⟩ := h
  rw [hr]
  exact hf s hat

theorem At.pure (h : At len abs fs text s) : Writes len abs fs text (.ok s) := ⟨s, rfl, h⟩

theorem At.get (h : At len abs fs text s) {k : Nat} (hk : k < text.length)
    : (s.dest.get .access k : Run (BitVec 8)) = .ok text[k] := by
  have hroom := h.room
  have hsize := h.size
  rw [Buffer.get_of_lt (by omega), h.data k hk]

theorem At.take (h : At len abs fs (front ++ rest) s) : At len abs fs front { s with writePos := front.length } where
  size := h.size
  isAbsolute := h.isAbsolute
  hasFilesystem := h.hasFilesystem
  pos := rfl
  room := by
    have := h.room
    rw [List.length_append] at this
    omega
  data := by
    intro k hk
    rw [h.data k (by rw [List.length_append]; omega), List.getElem_append_left hk]

theorem At.write (h : At len abs fs text s) (hlt : text.length + 1 < len) (c : BitVec 8)
    : ∃ dest, s.dest.set .access text.length c = (.ok dest : Run (Buffer (BitVec 8)))
        ∧ At len abs fs (text ++ [c]) { s with dest := dest, writePos := text.length + 1 } := by
  have hsize := h.size
  refine ⟨_, Buffer.set_of_lt (by omega), hsize, h.isAbsolute, h.hasFilesystem, ?_, ?_, ?_⟩
  . rw [List.length_append]
    rfl
  . rw [List.length_append]
    exact hlt
  . intro k hk
    dsimp only
    rw [List.length_append, List.length_singleton] at hk
    by_cases hlast : k = text.length
    . subst hlast
      rw [Function.update_self, List.getElem_concat_length rfl]
    . rw [Function.update_of_ne hlast, h.data k (by omega), List.getElem_append_left (by omega)]

theorem At.put (h : At len abs fs text s) (c : BitVec 8)
    : Writes len abs fs (if text.length < len - 1 then text ++ [c] else text) (s.put c) := by
  unfold PathNormalizer.put destEnd
  rw [h.pos, h.size]
  by_cases hlt : text.length < len - 1
  . obtain ⟨dest, hset, hat⟩ := h.write (by omega) c
    rw [if_pos hlt, if_pos hlt, hset, ok_bind]
    exact ⟨_, rfl, hat⟩
  . rw [if_neg hlt, if_neg hlt]
    exact h.pure

theorem moveBack_eq (hlimit : limit ≤ q) (hsize : q + j < s.dest.size) (hq : q = limit ∨ s.dest.data q = slash)
    (hnot : ∀ k, q < k → k ≤ q + j → s.dest.data k ≠ slash) : s.moveBack limit (q + j + 1) = .ok (q + 1) := by
  induction j with
  | zero =>
    rw [Nat.add_zero] at hsize
    rw [Nat.add_zero, moveBack]
    by_cases hgt : q > limit
    . have hslash : s.dest.data q = slash := hq.resolve_left (by omega)
      rw [if_pos hgt, Buffer.get_of_lt hsize, ok_bind, hslash, if_neg (not_not.mpr rfl)]
    . rw [if_neg hgt]
  | succ j ih =>
    rw [← Nat.add_assoc, moveBack, if_pos (by omega), Buffer.get_of_lt (by omega), ok_bind,
      if_pos (hnot _ (by omega) (by omega))]
    exact ih (by omega) fun k hk hj => hnot k hk (by omega)

theorem exists_moveBack (limit : Nat) {sep : Nat} (hsep : sep ≤ s.dest.size) : ∃ r, r ≤ sep ∧ s.moveBack limit sep = .ok r := by
  induction sep with
  | zero => exact ⟨0, Nat.le_refl 0, rfl⟩
  | succ sep ih =>
    rw [moveBack]
    split
    . rw [Buffer.get_of_lt (by omega), ok_bind]
      split
      . obtain ⟨r, hr, heq⟩ := ih (by omega)
        exact ⟨r, by omega, heq⟩
      . exact ⟨_, Nat.le_refl _, rfl⟩
    . exact ⟨_, Nat.le_refl _, rfl⟩

/--
The last separator in front of a name, behind which there may be another one.
-/
theorem At.lastSep {name tail : List (BitVec 8)} (h : At len abs fs (front ++ slash :: name ++ tail) s)
    (hname : name ≠ []) (hslash : slash ∉ name) (htail : tail = [] ∨ tail = [slash]) (hlimit : limit ≤ front.length)
    : s.lastSep limit = .ok (front.length + 1) := by
  have hpos := List.length_pos_iff.mpr hname
  have hroom := h.room
  have hlast : ∀ k (hk : k < name.length), s.dest.data (front.length + 1 + k) = name[k] := by
    intro k hk
    rw [h.data _ (by simp; omega), List.getElem_append_left (by simp; omega), List.getElem_append_right (by omega)]
    simp [show front.length + 1 + k - front.length = k + 1 by lia]
  have hback : s.moveBack limit (front.length + name.length + 1) = .ok (front.length + 1) := by
    apply moveBack_eq hlimit
    . rw [h.size]
      simp at hroom
      omega
    . rw [h.data _ (by simp)]
      simp
    . intro k hk hj heq
      have := hlast (k - front.length - 1) (by omega)
      rw [show front.length + 1 + (k - front.length - 1) = k by lia, heq] at this
      exact hslash (this ▸ List.getElem_mem _)
  unfold PathNormalizer.lastSep
  rw [h.pos]
  cases htail with
  | inl htail =>
    subst htail
    rw [List.append_nil] at h ⊢
    have hlength : (front ++ slash :: name).length = front.length + name.length + 1 := by simp; omega
    rw [hlength, Nat.add_sub_cancel, Buffer.get_of_lt (by rw [h.size]; simp at hroom; omega), ok_bind]
    have hdata := hlast (name.length - 1) (by omega)
    rw [show front.length + 1 + (name.length - 1) = front.length + name.length by lia] at hdata
    have hne : s.dest.data (front.length + name.length) ≠ slash := by
      intro heq
      rw [hdata] at heq
      exact hslash (heq ▸ List.getElem_mem _)
    rw [if_neg hne]
    exact hback
  | inr htail =>
    subst htail
    have hlength : (front ++ slash :: name ++ [slash]).length = front.length + name.length + 2 := by simp; omega
    have hdata : s.dest.data (front.length + name.length + 1) = slash := by
      rw [h.data _ (by omega), List.getElem_append_right (by simp; omega)]
      simp
    rw [hlength, Nat.add_sub_assoc (by omega), Buffer.get_of_lt (by rw [h.size]; omega), ok_bind, hdata, if_pos rfl]
    exact hback

theorem At.colonPos {filesystem : List (BitVec 8)} (h : At len abs fs (filesystem ++ colon :: rest) s)
    (hcolon : colon ∉ filesystem) (hzero : 0 ∉ filesystem) : s.colonPos = .ok filesystem.length := by
  have hroom := h.room
  have hsize := h.size
  rw [List.length_append, List.length_cons] at hroom
  have hfound : strchr s.dest 0 colon = .ok (some filesystem.length) := by
    have hgo : strchr.go s.dest colon (s.dest.size + 1) 0 = .ok (some (0 + filesystem.length)) := by
      apply strchr_go_eq
      . intro k hk
        rw [Nat.zero_add, h.data k (by simp; omega), List.getElem_append_left hk]
        have hmem := List.getElem_mem hk
        exact ⟨fun heq => hcolon (heq ▸ hmem), fun heq => hzero (heq ▸ hmem)⟩
      . rw [Nat.zero_add, h.data _ (by simp)]
        simp
      . omega
      . omega
    rwa [Nat.zero_add] at hgo
  unfold PathNormalizer.colonPos
  rw [hfound]
  rfl

section Absolute

variable {filesystem : List (BitVec 8)} {names : List (List (BitVec 8))} {pending : Bool}

/--
A name that can be on the stack of an absolute path.
-/
def IsName (name : List (BitVec 8)) : Prop := name ≠ [] ∧ slash ∉ name

/--
There is no colon and no terminator in the name of a filesystem.
-/
def IsFilesystem (filesystem : List (BitVec 8)) : Prop := colon ∉ filesystem ∧ 0 ∉ filesystem

theorem body_append (names : List (List (BitVec 8))) (name : List (BitVec 8))
    : body (names ++ [name]) = body names ++ slash :: name := by
  unfold body
  rw [List.flatMap_append, List.flatMap_singleton]

theorem absolute_root (filesystem : List (BitVec 8)) (pending : Bool)
    : absolute filesystem [] pending = prefixOf filesystem ++ [slash] := by
  unfold absolute body
  rw [List.flatMap_nil, List.append_nil, if_pos (.inl rfl)]

theorem absolute_append (filesystem : List (BitVec 8)) (names : List (List (BitVec 8))) (name : List (BitVec 8))
    (pending : Bool)
    : absolute filesystem (names ++ [name]) pending
        = prefixOf filesystem ++ body names ++ slash :: name ++ if pending then [slash] else [] := by
  unfold absolute
  rw [body_append]
  simp

theorem At.colonPos_absolute (h : At len abs fs (absolute filesystem names pending) s) (hne : filesystem ≠ [])
    (hfilesystem : IsFilesystem filesystem) : s.colonPos = .ok filesystem.length := by
  have heq : absolute filesystem names pending
      = filesystem ++ colon :: (body names ++ if names = [] ∨ pending then [slash] else []) := by
    unfold absolute prefixOf
    rw [if_neg hne]
    simp
  rw [heq] at h
  exact h.colonPos hfilesystem.1 hfilesystem.2

theorem body_eq_nil : body names = [] ↔ names = [] := by
  unfold body
  rw [List.flatMap_eq_nil_iff]
  constructor
  . intro h
    cases names with
    | nil => rfl
    | cons name names => exact absurd (h name List.mem_cons_self) (List.cons_ne_nil _ _)
  . intro h name hname
    rw [h] at hname
    contradiction

/--
Back to the root, which fits.
-/
theorem At.restart (h : At len true fs (prefixOf filesystem ++ rest) s) (hroot : (prefixOf filesystem).length < len - 1)
    : Writes len true fs (absolute filesystem [] pending)
        (PathNormalizer.put { s with writePos := (prefixOf filesystem).length } slash) := by
  have hput := h.take.put slash
  rw [if_pos hroot] at hput
  rw [absolute_root]
  exact hput

theorem length_prefixOf (filesystem : List (BitVec 8))
    : (prefixOf filesystem).length = if filesystem = [] then 0 else filesystem.length + 1 := by
  unfold prefixOf
  split
  . rfl
  . rw [List.length_append, List.length_singleton]

theorem upAbsolute_eq {sep : Nat} (h : At len true (filesystem ≠ []) (absolute filesystem names pending) s)
    (hfilesystem : IsFilesystem filesystem) (hpos : s.writePos > 0) (hsep : s.lastSep 0 = .ok sep)
    : s.upAbsolute
        =
      if sep ≤ (prefixOf filesystem).length + 1 then
        PathNormalizer.put { s with writePos := (prefixOf filesystem).length } slash
      else
        .ok { s with writePos := sep } := by
  unfold PathNormalizer.upAbsolute
  rw [if_pos hpos, hsep, ok_bind, h.hasFilesystem, length_prefixOf]
  by_cases hne : filesystem = []
  . rw [if_pos hne, decide_eq_false (not_not.mpr hne), if_neg Bool.false_ne_true]
  . rw [if_neg hne, decide_eq_true hne, if_pos rfl, h.colonPos_absolute hne hfilesystem, ok_bind]

theorem At.upAbsolute (h : At len true (filesystem ≠ []) (absolute filesystem names pending) s)
    (hfilesystem : IsFilesystem filesystem) (hroot : (prefixOf filesystem).length < len - 1)
    (hnames : ∀ name ∈ names, IsName name)
    : Writes len true (filesystem ≠ []) (absolute filesystem names.dropLast true) s.upAbsolute := by
  cases names.eq_nil_or_concat with
  | inl hnil =>
    subst hnil
    have hpos := h.pos
    have hroom := h.room
    rw [absolute_root, List.length_append, List.length_singleton] at hpos hroom
    obtain ⟨sep, hle, hback⟩ := exists_moveBack 0 (show (prefixOf filesystem).length ≤ s.dest.size by rw [h.size]; omega)
    have hsep : s.lastSep 0 = .ok sep := by
      have hdata := h.data (prefixOf filesystem).length (by rw [absolute_root]; simp)
      simp only [absolute_root] at hdata
      rw [List.getElem_concat_length rfl] at hdata
      unfold PathNormalizer.lastSep
      rw [hpos, Nat.add_sub_cancel, Buffer.get_of_lt (by rw [h.size]; omega), ok_bind, hdata, if_pos rfl]
      exact hback
    rw [upAbsolute_eq h hfilesystem (by omega) hsep, if_pos (by omega)]
    rw [absolute_root] at h
    exact h.restart hroot
  | inr hconcat =>
    obtain ⟨init, name, rfl⟩ := hconcat
    rw [List.concat_eq_append] at *
    have hname := hnames name (by simp)
    have hat := h
    rw [absolute_append] at hat
    have hpos : s.writePos > 0 := by
      rw [hat.pos, List.length_append, List.length_append, List.length_cons]
      omega
    have hsep := hat.lastSep hname.1 hname.2 (by split <;> simp) (Nat.zero_le _)
    rw [upAbsolute_eq h hfilesystem hpos hsep, List.dropLast_concat]
    by_cases hinit : init = []
    . subst hinit
      have hbody : body [] = [] := rfl
      rw [hbody, List.append_nil, List.append_assoc] at hat
      rw [hbody, List.append_nil, if_pos (Nat.le_refl _)]
      exact hat.restart hroot
    . have hbody : body init ≠ [] := mt body_eq_nil.1 hinit
      have hlength := List.length_pos_iff.mpr hbody
      rw [List.length_append, if_neg (by omega)]
      have heq : absolute filesystem init true = prefixOf filesystem ++ body init ++ [slash] := by
        unfold absolute
        rw [if_pos (.inr rfl)]
      have htake : At len true (filesystem ≠ [])
          (prefixOf filesystem ++ body init ++ [slash] ++ (name ++ if pending then [slash] else [])) s := by
        simpa using hat
      have htake := htake.take
      rw [List.length_append, List.length_append, List.length_singleton] at htake
      rw [heq]
      exact ⟨_, rfl, htake⟩

theorem At.strcpy (h : At len abs fs text s) (name : List (BitVec 8)) (hroom : text.length + name.length < len)
    : ∃ dest, Stdc.strcpy s.dest s.writePos name = .ok dest
        ∧ At len abs fs (text ++ name) { s with dest := dest, writePos := s.writePos + name.length } := by
  have hsize := h.size
  refine ⟨_, strcpy_eq (by rw [h.pos]; omega), hsize, h.isAbsolute, h.hasFilesystem, ?_, ?_, ?_⟩
  . rw [List.length_append, h.pos]
  . rw [List.length_append]
    exact hroom
  . intro k hk
    dsimp only
    rw [List.length_append] at hk
    rw [h.pos, Function.update_of_ne (by omega)]
    by_cases hin : k < text.length
    . rw [Buffer.store_outside (.inl hin), h.data k hin, List.getElem_append_left hin]
    . obtain ⟨j, rfl⟩ := Nat.exists_eq_add_of_le (Nat.le_of_not_lt hin)
      rw [Buffer.store_inside (by omega), List.getElem_append_right (by omega)]
      simp

/--
There is room for a path and two more characters.
-/
def fits (len : Nat) (filesystem : List (BitVec 8)) (names : List (List (BitVec 8))) : Bool :=
  (prefixOf filesystem ++ body names).length < len - 1

/--
The last character of a path that does not end with a slash.
-/
theorem getLast_body (filesystem : List (BitVec 8)) {names : List (List (BitVec 8))} (hne : names ≠ []) (hnames : ∀ name ∈ names, IsName name)
    : ∃ front c, prefixOf filesystem ++ body names = front ++ [c] ∧ c ≠ slash := by
  cases names.eq_nil_or_concat with
  | inl hnil => exact absurd hnil hne
  | inr hconcat =>
    obtain ⟨init, name, rfl⟩ := hconcat
    rw [List.concat_eq_append] at *
    have hname := hnames name (by simp)
    obtain ⟨front, c, rfl⟩ := (List.eq_nil_or_concat name).resolve_left hname.1
    refine ⟨prefixOf filesystem ++ body init ++ slash :: front, c, ?_, ?_⟩
    . rw [body_append]
      simp
    . intro heq
      exact hname.2 (by simp [heq])

/--
The copy of an element behind the separator.
-/
theorem At.copy (h : At len abs fs text s) (name : List (BitVec 8))
    : Writes len abs fs (if text.length + name.length < len - 1 then text ++ name else text)
        (if s.writePos + name.length < s.destEnd then do
          let dest ← Stdc.strcpy s.dest s.writePos name
          .ok { s with dest := dest, writePos := s.writePos + name.length }
        else
          .ok s) := by
  unfold destEnd
  rw [h.pos, h.size]
  split
  . obtain ⟨dest, hcopy, hat⟩ := h.strcpy name (by omega)
    rw [h.pos] at hcopy hat
    rw [hcopy, ok_bind]
    exact ⟨_, rfl, hat⟩
  . exact h.pure

theorem At.enter {name : List (BitVec 8)} (h : At len true fs (absolute filesystem names pending) s)
    (hnames : ∀ name ∈ names, IsName name)
    : ∃ pending',
        Writes len true fs
          (absolute filesystem (if fits len filesystem (names ++ [name]) then names ++ [name] else names) pending')
          (s.enter name) := by
  have hlength : (prefixOf filesystem ++ body (names ++ [name])).length
      = (prefixOf filesystem ++ body names).length + 1 + name.length := by
    rw [body_append]
    simp
    omega
  have hnew : absolute filesystem (names ++ [name]) false
      = prefixOf filesystem ++ body names ++ [slash] ++ name := by
    rw [absolute_append]
    simp
  -- how an element is copied behind the slash that is there or has been put
  have hcopy : ∀ t, At len true fs (prefixOf filesystem ++ body names ++ [slash]) t →
      ∃ pending',
        Writes len true fs
          (absolute filesystem (if fits len filesystem (names ++ [name]) then names ++ [name] else names) pending')
          (if t.writePos + name.length < t.destEnd then do
            let dest ← Stdc.strcpy t.dest t.writePos name
            .ok { t with dest := dest, writePos := t.writePos + name.length }
          else
            .ok t) := by
    intro t ht
    have hwrites := ht.copy name
    unfold fits
    rw [hlength]
    rw [List.length_append, List.length_singleton] at hwrites
    by_cases hfits : (prefixOf filesystem ++ body names).length + 1 + name.length < len - 1
    . rw [if_pos hfits, ← hnew] at hwrites
      rw [decide_eq_true hfits, if_pos rfl]
      exact ⟨false, hwrites⟩
    . rw [if_neg hfits] at hwrites
      rw [decide_eq_false hfits, if_neg Bool.false_ne_true]
      refine ⟨true, ?_⟩
      unfold absolute
      rw [if_pos (.inr rfl)]
      exact hwrites
  have hroom := h.room
  unfold PathNormalizer.enter
  by_cases hslash : names = [] ∨ pending = true
  . have htext : absolute filesystem names pending = prefixOf filesystem ++ body names ++ [slash] := by
      unfold absolute
      rw [if_pos hslash]
    rw [htext] at h hroom
    have hpos : s.writePos > 0 := by
      rw [h.pos, List.length_append, List.length_singleton]
      omega
    have hlast : (s.dest.get .access (s.writePos - 1) : Run (BitVec 8)) = .ok slash := by
      rw [h.pos, List.length_append, List.length_singleton, Nat.add_sub_cancel, h.get (by simp)]
      rw [List.getElem_concat_length rfl]
    rw [if_pos hpos, hlast, ok_bind, if_neg (not_not.mpr rfl), ok_bind]
    exact hcopy s h
  . have hne := (not_or.mp hslash).1
    have htext : absolute filesystem names pending = prefixOf filesystem ++ body names := by
      unfold absolute
      rw [if_neg hslash, List.append_nil]
    obtain ⟨front, c, heq, hc⟩ := getLast_body filesystem hne hnames
    rw [htext] at h hroom
    have hat := h
    rw [heq] at hat
    have hpos : s.writePos > 0 := by
      rw [hat.pos]
      simp
    have hlast : (s.dest.get .access (s.writePos - 1) : Run (BitVec 8)) = .ok c := by
      rw [hat.pos, List.length_append, List.length_singleton, Nat.add_sub_cancel, hat.get (by simp)]
      rw [List.getElem_concat_length rfl]
    rw [if_pos hpos, hlast, ok_bind, if_pos hc]
    obtain ⟨t, hput, ht⟩ := h.put slash
    rw [hput, ok_bind]
    by_cases hlt : (prefixOf filesystem ++ body names).length < len - 1
    . rw [if_pos hlt] at ht
      exact hcopy t ht
    . rw [if_neg hlt] at ht
      have hwrites := ht.copy name
      rw [if_neg (by omega)] at hwrites
      have hfits : fits len filesystem (names ++ [name]) = false := by
        unfold fits
        rw [hlength]
        exact decide_eq_false (by omega)
      rw [hfits, if_neg Bool.false_ne_true]
      refine ⟨pending, ?_⟩
      rw [htext]
      exact hwrites

theorem IsName.resolveStep {fits : List (List (BitVec 8)) → Bool} {element : List (BitVec 8)}
    (hnames : ∀ name ∈ names, IsName name) (helement : slash ∉ element)
    : ∀ name ∈ resolveStep fits names element, IsName name := by
  unfold Core.resolveStep
  intro name hname
  split at hname
  . exact hnames name hname
  . next hne =>
    split at hname
    . exact hnames name hname
    . split at hname
      . exact hnames name (List.mem_of_mem_dropLast hname)
      . split at hname
        . rw [List.mem_append, List.mem_singleton] at hname
          cases hname with
          | inl hname => exact hnames name hname
          | inr hname =>
            subst hname
            exact ⟨hne, helement⟩
        . exact hnames name hname

theorem At.step (element : List (BitVec 8))
    (h : At len true (filesystem ≠ []) (absolute filesystem names pending) s) (hfilesystem : IsFilesystem filesystem)
    (hroot : (prefixOf filesystem).length < len - 1) (hnames : ∀ name ∈ names, IsName name)
    : ∃ pending',
        Writes len true (filesystem ≠ []) (absolute filesystem (resolveStep (fits len filesystem) names element) pending')
          (s.step element) := by
  unfold PathNormalizer.step resolveStep
  split
  . exact ⟨pending, h.pure⟩
  . split
    . exact ⟨pending, h.pure⟩
    . split
      . rw [h.isAbsolute, if_pos rfl]
        exact ⟨true, h.upAbsolute hfilesystem hroot hnames⟩
      . exact h.enter hnames

theorem At.foldlM_step {elements : List (List (BitVec 8))}
    (h : At len true (filesystem ≠ []) (absolute filesystem names pending) s) (hfilesystem : IsFilesystem filesystem)
    (hroot : (prefixOf filesystem).length < len - 1) (hnames : ∀ name ∈ names, IsName name)
    (helements : ∀ e ∈ elements, slash ∉ e)
    : (∀ name ∈ elements.foldl (resolveStep (fits len filesystem)) names, IsName name)
        ∧ ∃ pending',
          Writes len true (filesystem ≠ [])
            (absolute filesystem (elements.foldl (resolveStep (fits len filesystem)) names) pending')
            (elements.foldlM PathNormalizer.step s) := by
  induction elements generalizing s names pending with
  | nil => exact ⟨hnames, pending, h.pure⟩
  | cons element elements ih =>
    rw [List.forall_mem_cons] at helements
    obtain ⟨pending', t, hstep, ht⟩ := h.step element hfilesystem hroot hnames
    rw [List.foldlM_cons, hstep, ok_bind, List.foldl_cons]
    exact ih ht (IsName.resolveStep hnames helements.1) helements.2

/--
The string ends where the last character has been written.
-/
theorem At.terminate (h : At len abs fs text s)
    : ∃ dest, s.terminate = .ok dest ∧ dest.size = len ∧ HoldsString dest 0 text := by
  have hroom := h.room
  have hsize := h.size
  unfold PathNormalizer.terminate
  rw [h.pos, if_pos (by omega), Buffer.set_of_lt (by omega)]
  refine ⟨_, rfl, hsize, holdsString_of_data ?_ ?_ ?_⟩
  . dsimp only
    omega
  . intro k hk
    dsimp only
    rw [Nat.zero_add, Function.update_of_ne (by omega), h.data k hk]
  . dsimp only
    rw [Nat.zero_add, Function.update_self]

theorem At.getLast (h : At len abs fs (text ++ [c]) s)
    : s.writePos = text.length + 1 ∧ (s.dest.get .access (s.writePos - 1) : Run (BitVec 8)) = .ok c := by
  have hpos := h.pos
  rw [List.length_append, List.length_singleton] at hpos
  refine ⟨hpos, ?_⟩
  rw [hpos, Nat.add_sub_cancel, h.get (by simp), List.getElem_concat_length rfl]

theorem At.trim (h : At len true (filesystem ≠ []) (absolute filesystem names pending) s)
    (hfilesystem : IsFilesystem filesystem) (hnames : ∀ name ∈ names, IsName name)
    : s.writePos ≠ 0 ∧ Writes len true (filesystem ≠ []) (absolute filesystem names false) s.trim := by
  have hlength := length_prefixOf filesystem
  unfold PathNormalizer.trim
  by_cases hslash : names = [] ∨ pending = true
  . have htext : absolute filesystem names pending = prefixOf filesystem ++ body names ++ [slash] := by
      unfold absolute
      rw [if_pos hslash]
    have hat := h
    rw [htext] at hat
    obtain ⟨hpos, hlast⟩ := hat.getLast
    rw [List.length_append] at hpos
    refine ⟨by omega, ?_⟩
    rw [hlast, ok_bind, if_neg (not_not.mpr rfl)]
    by_cases hnil : names = []
    . subst hnil
      have hstay : absolute filesystem [] pending = absolute filesystem [] false := by
        rw [absolute_root, absolute_root]
      have hbody : body [] = [] := rfl
      rw [hbody, List.length_nil, Nat.add_zero] at hpos
      rw [hstay] at h
      by_cases hne : filesystem = []
      . rw [hlength, if_pos hne] at hpos
        rw [if_neg (by omega)]
        exact h.pure
      . have hflag : s.hasFilesystem = true := h.hasFilesystem.trans (decide_eq_true hne)
        rw [hlength, if_neg hne] at hpos
        rw [if_pos (by omega), hflag, if_neg (by decide), h.colonPos_absolute hne hfilesystem, ok_bind,
          if_neg (by omega)]
        exact h.pure
    . have hbody := List.length_pos_iff.mpr (mt body_eq_nil.1 hnil)
      have hcut : absolute filesystem names false = prefixOf filesystem ++ body names := by
        unfold absolute
        rw [if_neg (not_or.mpr ⟨hnil, Bool.false_ne_true⟩), List.append_nil]
      have hend : (absolute filesystem names false).length = s.writePos - 1 := by
        rw [hcut, List.length_append]
        lia
      have htake := hat.take
      rw [← hcut, hend] at htake
      rw [if_pos (by omega)]
      by_cases hne : filesystem = []
      . have hflag : s.hasFilesystem = false := h.hasFilesystem.trans (decide_eq_false (not_not.mpr hne))
        rw [hflag, if_pos (by decide)]
        rw [hflag] at htake
        exact ⟨_, rfl, htake⟩
      . have hflag : s.hasFilesystem = true := h.hasFilesystem.trans (decide_eq_true hne)
        rw [hlength, if_neg hne] at hpos
        rw [hflag, if_neg (by decide), h.colonPos_absolute hne hfilesystem, ok_bind, if_pos (by omega)]
        rw [hflag] at htake
        exact ⟨_, rfl, htake⟩
  . have hpending : pending = false := Bool.eq_false_of_not_eq_true (not_or.mp hslash).2
    subst hpending
    have htext : absolute filesystem names false = prefixOf filesystem ++ body names := by
      unfold absolute
      rw [if_neg hslash, List.append_nil]
    obtain ⟨front, c, heq, hc⟩ := getLast_body filesystem (not_or.mp hslash).1 hnames
    have hat := h
    rw [htext, heq] at hat
    obtain ⟨hpos, hlast⟩ := hat.getLast
    refine ⟨by omega, ?_⟩
    rw [hlast, ok_bind, if_pos hc, ite_self]
    exact h.pure

theorem At.finish (h : At len true (filesystem ≠ []) (absolute filesystem names pending) s)
    (hfilesystem : IsFilesystem filesystem) (hnames : ∀ name ∈ names, IsName name)
    : ∃ dest, s.finish = .ok dest ∧ dest.size = len ∧ HoldsString dest 0 (absolute filesystem names false) := by
  obtain ⟨hpos, t, htrim, ht⟩ := h.trim hfilesystem hnames
  unfold PathNormalizer.finish PathNormalizer.writeDot
  rw [if_neg fun hzero => hpos hzero.2.1, ok_bind, htrim, ok_bind]
  exact ht.terminate

end Absolute

end PathNormalizer

section Loop

variable {it : PathIterator} {n : Nat} {s : PathNormalizer} {reports : List (Bool × List (BitVec 8))}

theorem normalizeLoop_rest (h : pathIterAll n it = .ok reports)
    : normalizeLoop n false it s = (reports.map Prod.snd).foldlM PathNormalizer.step s := by
  induction n generalizing it s reports with
  | zero => contradiction
  | succ n ih =>
    rw [pathIterAll] at h
    rw [normalizeLoop]
    cases hnext : pathIterNext it with
    | mk last it =>
      rw [hnext] at h
      change (.ok s >>= fun s => s.step it.element >>= fun s => if last then .ok s else normalizeLoop n false it s) = _
      rw [ok_bind]
      cases last with
      | true =>
        cases h
        rfl
      | false =>
        obtain ⟨rest, hrest, h⟩ := (bind_eq_ok _ _ _).mp h
        cases h
        rw [List.map_cons, List.foldlM_cons]
        congr 1
        funext t
        exact ih hrest

theorem normalizeLoop_first {hasSeparator : Bool} {element : List (BitVec 8)}
    (h : pathIterAll n it = .ok ((hasSeparator, element) :: reports))
    : normalizeLoop n true it s
        =
      s.start true hasSeparator >>= fun t => (element :: reports.map Prod.snd).foldlM PathNormalizer.step t := by
  cases n with
  | zero => contradiction
  | succ n =>
    rw [pathIterAll] at h
    rw [normalizeLoop]
    cases hnext : pathIterNext it with
    | mk last it =>
      rw [hnext] at h
      change (s.start true it.hasSeparator >>= fun s =>
        s.step it.element >>= fun s => if last then .ok s else normalizeLoop n false it s) = _
      cases last with
      | true =>
        cases h
        rfl
      | false =>
        obtain ⟨rest, hrest, h⟩ := (bind_eq_ok _ _ _).mp h
        cases h
        congr 1
        funext t
        rw [List.foldlM_cons]
        congr 1
        funext u
        exact normalizeLoop_rest hrest

end Loop

section Path

open PathNormalizer

theorem isFilesystem_filesystemOf (path : CString) : IsFilesystem (filesystemOf path.bytes) := by
  have hzero := path.nonzero
  unfold IsFilesystem filesystemOf
  split
  . constructor
    . intro hmem
      have := List.mem_takeWhile_imp hmem
      simp at this
    . intro hmem
      exact hzero ((List.takeWhile_prefix _).subset hmem)
  . exact ⟨List.not_mem_nil, List.not_mem_nil⟩

theorem notMem_of_mem_splitOn {n : Nat} {text e : List (BitVec 8)} (hlen : text.length < n)
    (he : e ∈ text.splitOn slash) : slash ∉ e := by
  induction n generalizing text with
  | zero => contradiction
  | succ n ih =>
    by_cases hslash : slash ∈ text
    . obtain ⟨front, rest, rfl, hnot⟩ := List.eq_append_cons_of_mem hslash
      rw [List.splitOn_append_cons_self_of_not_mem hnot, List.mem_cons] at he
      cases he with
      | inl he =>
        rw [he]
        exact hnot
      | inr he =>
        rw [List.length_append, List.length_cons] at hlen
        exact ih (by omega) he
    . rw [List.splitOn_eq_singleton hslash, List.mem_singleton] at he
      rw [he]
      exact hslash

theorem slash_notMem_components {text e : List (BitVec 8)} (he : e ∈ components text) : slash ∉ e :=
  notMem_of_mem_splitOn (Nat.lt_succ_self _) he

theorem length_behindFilesystem_le (path : List (BitVec 8)) : (behindFilesystem path).length ≤ path.length := by
  unfold behindFilesystem
  split
  . have hle := List.length_dropWhile_le (· ≠ colon) path
    rw [List.length_tail]
    omega
  . exact Nat.le_refl _

/--
An absolute path for which there is room for the root.
-/
theorem pathNormalize_absolute (path : CString) (dest : Buffer (BitVec 8))
    (hslash : (behindFilesystem path.bytes).head? = some slash)
    (hshort : ∀ e ∈ filesystemOf path.bytes :: components (behindFilesystem path.bytes), e.length < filenameMax)
    (hroot : (prefixOf (filesystemOf path.bytes)).length < dest.size - 1)
    : ∃ dest', pathNormalize dest path = .ok (some dest') ∧ dest'.size = dest.size
        ∧ HoldsString dest' 0
          (absolute (filesystemOf path.bytes)
            ((components (behindFilesystem path.bytes)).foldl
              (resolveStep (fits dest.size (filesystemOf path.bytes))) [])
            false) := by
  obtain ⟨helement, hcursor⟩ := pathIterInit_eq (hshort _ List.mem_cons_self)
  have hfilesystem := isFilesystem_filesystemOf path
  have hall : pathIterAll (path.strlen + 1) (pathIterInit path.bytes)
      = .ok (reportsOf true (components (behindFilesystem path.bytes))) := by
    have hle := length_behindFilesystem_le path.bytes
    have hlen : (pathIterInit path.bytes).cursor.length < path.strlen + 1 := by
      rw [hcursor]
      exact Nat.lt_succ_of_le hle
    have hreports := pathIterAll_eq hlen
    rw [hcursor, hslash, decide_eq_true rfl] at hreports
    exact hreports fun e he => hshort e (List.mem_cons_of_mem _ he)
  have hne : components (behindFilesystem path.bytes) ≠ [] := List.splitOn_ne_nil _ _
  have helements : ∀ e ∈ components (behindFilesystem path.bytes), slash ∉ e := fun e he => slash_notMem_components he
  -- the loop and what comes behind it, once the filesystem has been copied
  have hrun : ∀ s, At dest.size false (filesystemOf path.bytes ≠ []) (prefixOf (filesystemOf path.bytes)) s →
      ∃ t dest', normalizeLoop (path.strlen + 1) true (pathIterInit path.bytes) s = .ok t ∧ t.finish = .ok dest'
        ∧ dest'.size = dest.size
        ∧ HoldsString dest' 0
          (absolute (filesystemOf path.bytes)
            ((components (behindFilesystem path.bytes)).foldl
              (resolveStep (fits dest.size (filesystemOf path.bytes))) [])
            false) := by
    intro s hs
    obtain ⟨element, elements, heq⟩ := List.exists_cons_of_ne_nil hne
    rw [heq] at hall helements ⊢
    have hstart : At dest.size true (filesystemOf path.bytes ≠ []) (prefixOf (filesystemOf path.bytes))
        { s with isAbsolute := true } := ⟨hs.size, rfl, hs.hasFilesystem, hs.pos, hs.room, hs.data⟩
    obtain ⟨t, hput, ht⟩ := hstart.put slash
    rw [if_pos hroot, ← absolute_root _ false] at ht
    obtain ⟨hnames, pending, u, hfold, hu⟩ := ht.foldlM_step hfilesystem hroot (fun _ h => absurd h List.not_mem_nil) helements
    obtain ⟨dest', hfinish, hdest⟩ := hu.finish hfilesystem hnames
    refine ⟨u, dest', ?_, hfinish, hdest⟩
    rw [reportsOf] at hall
    rw [normalizeLoop_first hall, map_snd_reportsOf]
    unfold PathNormalizer.start
    rw [Bool.and_self, if_pos rfl, hput, ok_bind]
    exact hfold
  have hlength := length_prefixOf (filesystemOf path.bytes)
  unfold pathNormalize
  rw [if_neg (by omega)]
  dsimp only
  rw [helement]
  by_cases hnil : filesystemOf path.bytes = []
  . have hat : At dest.size false (filesystemOf path.bytes ≠ []) (prefixOf (filesystemOf path.bytes))
        ⟨dest, 0, false, false⟩ := by
      have hpos : 0 < dest.size := by omega
      rw [hnil]
      exact ⟨rfl, rfl, rfl, rfl, hpos, fun k hk => absurd hk (Nat.not_lt_zero k)⟩
    obtain ⟨t, dest', hloop, hfinish, hdest⟩ := hrun _ hat
    rw [if_neg (not_not.mpr hnil), hloop, ok_bind, hfinish, ok_bind]
    exact ⟨dest', rfl, hdest⟩
  . have hpos : 0 < dest.size := by omega
    have hempty : At dest.size false true [] ⟨dest, 0, false, true⟩ :=
      ⟨rfl, rfl, rfl, rfl, hpos, fun k hk => absurd hk (Nat.not_lt_zero k)⟩
    rw [hlength, if_neg hnil] at hroot
    obtain ⟨dest₁, hcopy, hname⟩ := hempty.strcpy (filesystemOf path.bytes) (by simp; omega)
    obtain ⟨dest₂, hset, hat⟩ := hname.write (by simp; omega) colon
    rw [List.nil_append] at hset hat
    dsimp only at hcopy hset
    have hflag : decide (filesystemOf path.bytes ≠ []) = true := decide_eq_true hnil
    have hcut : prefixOf (filesystemOf path.bytes) = filesystemOf path.bytes ++ [colon] := if_neg hnil
    rw [← hcut, ← hflag] at hat
    obtain ⟨t, dest', hloop, hfinish, hdest⟩ := hrun _ hat
    dsimp only at hloop
    rw [hflag] at hloop
    rw [if_pos hnil, if_neg (by omega), hcopy, ok_bind, hset, ok_bind, hloop, ok_bind, hfinish, ok_bind]
    exact ⟨dest', rfl, hdest⟩

end Path

section Resolve

open PathNormalizer

variable {filesystem : List (BitVec 8)} {elements names : List (List (BitVec 8))} {len : Nat}

theorem length_body_cons (name : List (BitVec 8)) (names : List (List (BitVec 8)))
    : (body (name :: names)).length = 1 + name.length + (body names).length := by
  unfold body
  rw [List.flatMap_cons, List.length_append, List.length_cons]
  omega

theorem length_body_dropLast_le (names : List (List (BitVec 8))) : (body names.dropLast).length ≤ (body names).length := by
  cases names.eq_nil_or_concat with
  | inl hnil =>
    rw [hnil]
    exact Nat.le_refl _
  | inr hconcat =>
    obtain ⟨init, name, rfl⟩ := hconcat
    rw [List.concat_eq_append, List.dropLast_concat, body_append, List.length_append]
    omega

/--
Nothing is dropped if there is room for all elements at once.
-/
theorem foldl_resolveStep_fits
    (hroom : (prefixOf filesystem).length + (body names).length + (body elements).length < len - 1)
    : elements.foldl (resolveStep (fits len filesystem)) names = elements.foldl (resolveStep fun _ => true) names := by
  induction elements generalizing names with
  | nil => rfl
  | cons element elements ih =>
    rw [length_body_cons] at hroom
    have hdrop := length_body_dropLast_le names
    have hstep : resolveStep (fits len filesystem) names element = resolveStep (fun _ => true) names element := by
      have hfits : fits len filesystem (names ++ [element]) = true := by
        unfold fits
        rw [decide_eq_true_eq, body_append, List.length_append, List.length_append, List.length_cons]
        omega
      unfold resolveStep
      rw [hfits]
    rw [List.foldl_cons, List.foldl_cons, hstep]
    apply ih
    unfold resolveStep
    split
    . omega
    . split
      . omega
      . split
        . omega
        . rw [if_pos rfl, body_append, List.length_append, List.length_cons]
          omega

/--
A name that is left when dot and dot-dot are resolved.
-/
def IsProper (name : List (BitVec 8)) : Prop := name ≠ [] ∧ name ≠ [dot] ∧ name ≠ [dot, dot]

theorem resolveStep_proper {name : List (BitVec 8)} (hname : IsProper name)
    : resolveStep (fun _ => true) names name = names ++ [name] := by
  unfold resolveStep
  rw [if_neg hname.1, if_neg hname.2.1, if_neg hname.2.2, if_pos rfl]

theorem mem_resolveStep {element name : List (BitVec 8)} (hname : name ∈ resolveStep (fun _ => true) names element)
    : name ∈ names ∨ (name = element ∧ IsProper name) := by
  unfold resolveStep at hname
  split at hname
  . exact .inl hname
  . next hnil =>
    split at hname
    . exact .inl hname
    . next hdot =>
      split at hname
      . exact .inl (List.mem_of_mem_dropLast hname)
      . next hdotdot =>
        rw [if_pos rfl, List.mem_append, List.mem_singleton] at hname
        refine hname.imp_right fun heq => ⟨heq, ?_⟩
        rw [heq]
        exact ⟨hnil, hdot, hdotdot⟩

theorem mem_foldl_resolveStep {name : List (BitVec 8)} (hname : name ∈ elements.foldl (resolveStep fun _ => true) names)
    : name ∈ names ∨ (name ∈ elements ∧ IsProper name) := by
  induction elements generalizing names with
  | nil => exact .inl hname
  | cons element elements ih =>
    rw [List.foldl_cons] at hname
    cases ih hname with
    | inl hname =>
      refine (mem_resolveStep hname).imp_right fun ⟨heq, hproper⟩ => ⟨?_, hproper⟩
      rw [heq]
      exact List.mem_cons_self
    | inr hname => exact .inr ⟨List.mem_cons_of_mem _ hname.1, hname.2⟩

theorem mem_resolve {name : List (BitVec 8)} (hname : name ∈ resolve elements) : name ∈ elements ∧ IsProper name :=
  (mem_foldl_resolveStep hname).resolve_left List.not_mem_nil

theorem foldl_resolveStep_proper (h : ∀ name ∈ elements, IsProper name)
    : elements.foldl (resolveStep fun _ => true) names = names ++ elements := by
  induction elements generalizing names with
  | nil => rw [List.foldl_nil, List.append_nil]
  | cons element elements ih =>
    rw [List.forall_mem_cons] at h
    rw [List.foldl_cons, resolveStep_proper h.1, ih h.2, List.append_assoc, List.singleton_append]

/--
There is nothing to resolve a second time.
-/
theorem resolve_resolve : resolve (resolve elements) = resolve elements :=
  foldl_resolveStep_proper fun _ hname => (mem_resolve hname).2

theorem body_eq_intercalate (hne : elements ≠ []) : body elements = slash :: [slash].intercalate elements := by
  induction elements with
  | nil => contradiction
  | cons element elements ih =>
    cases elements with
    | nil => simp [body]
    | cons next elements =>
      have hcons : body (element :: next :: elements) = slash :: element ++ body (next :: elements) := rfl
      rw [hcons, ih (List.cons_ne_nil next elements), List.intercalate_cons_cons]
      simp

theorem components_body (hne : elements ≠ []) (hslash : ∀ e ∈ elements, slash ∉ e)
    : components (body elements) = elements := by
  unfold components
  rw [body_eq_intercalate hne]
  exact List.splitOn_intercalate slash hslash hne

/--
A path with a slash in front of each of its elements, behind the name of a filesystem if that is not empty.
-/
structure IsAbsolute (filesystem : List (BitVec 8)) (elements : List (List (BitVec 8))) (path : CString) : Prop where
  bytes_eq : path.bytes = prefixOf filesystem ++ body elements
  ne_nil : elements ≠ []
  isName : colon ∉ filesystem
  noSlash : ∀ e ∈ elements, slash ∉ e
  noColon : filesystem = [] → ∀ e ∈ elements, colon ∉ e
  short : ∀ e ∈ elements, e.length < filenameMax

/--
The names are joined by single slashes, and only the root has one at the end.
-/
def normalForm (filesystem : List (BitVec 8)) (names : List (List (BitVec 8))) : List (BitVec 8) :=
  prefixOf filesystem ++ slash :: [slash].intercalate names

/--
What `path_normalize` returns in every buffer with three characters more than the path has.
-/
def Normalizes (path : CString) (text : List (BitVec 8)) : Prop :=
  ∀ dest : Buffer (BitVec 8), path.strlen + 3 ≤ dest.size →
    ∃ dest', pathNormalize dest path = .ok (some dest') ∧ dest'.size = dest.size ∧ HoldsString dest' 0 text

theorem absolute_false : absolute filesystem names false = normalForm filesystem names := by
  unfold normalForm
  by_cases hnil : names = []
  . rw [hnil, absolute_root]
    rfl
  . unfold absolute
    rw [if_neg (not_or.mpr ⟨hnil, Bool.false_ne_true⟩), List.append_nil, body_eq_intercalate hnil]

theorem colon_notMem_body (h : ∀ e ∈ elements, colon ∉ e) : colon ∉ body elements := by
  unfold body
  intro hmem
  obtain ⟨e, he, hmem⟩ := List.mem_flatMap.mp hmem
  cases List.mem_cons.mp hmem with
  | inl heq => contradiction
  | inr hmem => exact h e he hmem

theorem IsAbsolute.split {path : CString} (h : IsAbsolute filesystem elements path)
    : filesystemOf path.bytes = filesystem ∧ behindFilesystem path.bytes = body elements := by
  unfold filesystemOf behindFilesystem
  rw [h.bytes_eq]
  unfold prefixOf
  by_cases hnil : filesystem = []
  . have hcolon : (body elements).contains colon ≠ true := mt List.contains_iff_mem.mp (colon_notMem_body (h.noColon hnil))
    rw [if_pos hnil, List.nil_append, if_neg hcolon, if_neg hcolon, hnil]
    exact ⟨rfl, rfl⟩
  . have hcolon : (filesystem ++ colon :: body elements).contains colon = true := by
      rw [List.contains_iff_mem]
      simp
    rw [if_neg hnil, List.append_assoc, List.singleton_append, if_pos hcolon, if_pos hcolon, takeWhile_colon h.isName,
      dropWhile_colon h.isName]
    exact ⟨rfl, rfl⟩

theorem IsAbsolute.normalizes {path : CString} (h : IsAbsolute filesystem elements path)
    (hshort : filesystem.length < filenameMax) : Normalizes path (normalForm filesystem (resolve elements)) := by
  intro dest hsize
  obtain ⟨hfilesystem, hbehind⟩ := h.split
  have hcomponents := components_body h.ne_nil h.noSlash
  have hlength : path.strlen = (prefixOf filesystem).length + (body elements).length := by
    unfold CString.strlen
    rw [h.bytes_eq, List.length_append]
  have hnormalize := pathNormalize_absolute path dest
  rw [hfilesystem, hbehind, hcomponents] at hnormalize
  obtain ⟨dest', heq, hsize', hholds⟩ := hnormalize (by rw [body_eq_intercalate h.ne_nil]; rfl)
    (List.forall_mem_cons.mpr ⟨hshort, h.short⟩) (by lia)
  have hbody : (body []).length = 0 := rfl
  rw [foldl_resolveStep_fits (by lia), absolute_false] at hholds
  exact ⟨dest', heq, hsize', hholds⟩

/--
The normal form is an absolute path again, whose names are all that is left.
-/
theorem IsAbsolute.again {path : CString} (h : IsAbsolute filesystem elements path)
    : ∃ elements' path', path'.bytes = normalForm filesystem (resolve elements)
        ∧ IsAbsolute filesystem elements' path' ∧ resolve elements' = resolve elements := by
  have hmem : ∀ e ∈ resolve elements, e ∈ elements := fun e he => (mem_resolve he).1
  have hzero : ∀ names : List (List (BitVec 8)), (∀ e ∈ names, e ∈ elements) → 0 ∉ prefixOf filesystem ++ body names := by
    intro names hnames hzero
    apply path.nonzero
    rw [h.bytes_eq]
    rw [List.mem_append] at hzero ⊢
    refine hzero.imp_right fun hzero => ?_
    unfold body at hzero ⊢
    obtain ⟨e, he, hzero⟩ := List.mem_flatMap.mp hzero
    exact List.mem_flatMap.mpr ⟨e, hnames e he, hzero⟩
  by_cases hnil : resolve elements = []
  . have hroot : normalForm filesystem (resolve elements) = prefixOf filesystem ++ body [[]] := by
      rw [hnil]
      rfl
    have hnozero : 0 ∉ prefixOf filesystem ++ body [[]] := by
      have := hzero [] (fun e he => absurd he List.not_mem_nil)
      simp [body] at this ⊢
      exact ⟨this, by decide⟩
    refine ⟨[[]], ⟨_, hnozero⟩, hroot.symm, ⟨rfl, List.cons_ne_nil _ _, h.isName, ?_, ?_, ?_⟩, ?_⟩
    . simp
    . simp
    . simp [filenameMax]
    . rw [hnil]
      rfl
  . have hnames : normalForm filesystem (resolve elements) = prefixOf filesystem ++ body (resolve elements) := by
      rw [body_eq_intercalate hnil]
      rfl
    exact ⟨resolve elements, ⟨_, hzero _ hmem⟩, hnames.symm,
      ⟨rfl, hnil, h.isName, fun e he => h.noSlash e (hmem e he), fun hfs e he => h.noColon hfs e (hmem e he),
        fun e he => h.short e (hmem e he)⟩, resolve_resolve⟩

/--
Normalizing an absolute path, whose filesystem has a name of at most 255 characters if it has one, resolves dot and
dot-dot, and there is nothing left to do for its own result.
-/
theorem path_normalize_absolute (path : CString) (filesystem : List (BitVec 8)) (elements : List (List (BitVec 8)))
    (h : IsAbsolute filesystem elements path) (hshort : filesystem.length < filenameMax)
    : Normalizes path (normalForm filesystem (resolve elements))
        ∧ ∃ path' : CString, path'.bytes = normalForm filesystem (resolve elements) ∧ Normalizes path' path'.bytes := by
  obtain ⟨elements', path', hbytes, habsolute, hresolve⟩ := h.again
  refine ⟨h.normalizes hshort, path', hbytes, ?_⟩
  have hagain := habsolute.normalizes hshort
  rwa [hresolve, ← hbytes] at hagain

theorem path_normalize_absolute_drive
    : Normalizes ⟨[0x66, 0x64, 0x3A, 0x2F, 0x61, 0x2F, 0x2E, 0x2E, 0x2F, 0x62], by decide⟩
        (normalForm [0x66, 0x64] (resolve [[0x61], [dot, dot], [0x62]]))
        ∧ ∃ path' : CString, path'.bytes = normalForm [0x66, 0x64] (resolve [[0x61], [dot, dot], [0x62]])
          ∧ Normalizes path' path'.bytes :=
  path_normalize_absolute ⟨[0x66, 0x64, 0x3A, 0x2F, 0x61, 0x2F, 0x2E, 0x2E, 0x2F, 0x62], by decide⟩ [0x66, 0x64]
    [[0x61], [dot, dot], [0x62]] ⟨by decide, by decide, by decide, by decide, by decide, by decide⟩ (by decide)

/--
A name in front of the colon that is too long is cut off.
-/
theorem path_normalize_cuts_filesystem
    : ¬ ∀ (path : CString) (filesystem : List (BitVec 8)) (elements : List (List (BitVec 8))),
        IsAbsolute filesystem elements path → Normalizes path (normalForm filesystem (resolve elements)) := by
  intro h
  obtain ⟨dest', heq, hsize, hholds⟩ := h
    ⟨List.replicate 256 0x61 ++ [0x3A, 0x2F, 0x62], by decide⟩ (List.replicate 256 0x61) [[0x62]]
    ⟨by decide +kernel, by decide, by decide +kernel, by decide, by decide, by decide⟩ ⟨262, fun _ => 0⟩
    (by decide +kernel)
  have hcolon : (pathNormalize ⟨262, fun _ => 0⟩
      ⟨List.replicate 256 0x61 ++ [0x3A, 0x2F, 0x62], by decide⟩).map (Option.map fun m => m.data 255)
        = .ok (some colon) := by decide +kernel
  rw [heq] at hcolon
  have hname : normalForm (List.replicate 256 0x61) (resolve [[0x62]])
      = List.replicate 255 0x61 ++ [0x61, 0x3A, 0x2F, 0x62] := by decide +kernel
  rw [hname] at hholds
  have hchar := hholds.append
  rw [List.length_replicate] at hchar
  have hchar' : dest'.data 255 = colon := Option.some.inj (Except.ok.inj hcolon)
  exact absurd (hchar.1.2.symm.trans hchar') (by decide)

end Resolve

end Emos.Boot.Core
