import Hobby386.Fs.Path

/-!
# The parts of a path

`getname` returns a pointer into the path besides the two strings that it stores. It cuts a path in
front of its last component, and fails for a path without one and for a component that does not fit.
-/

namespace Hobby386

/-- The last component of a path: what is left of it without the slashes at its end, up to the slash
before. -/
def CString.lastComponent (s : CString) : List UInt8 :=
  ((s.bytes.reverse.dropWhile (· = slash)).takeWhile (· ≠ slash)).reverse

/-- The component that the loops of `getname` find is the last one. -/
theorem NameCut.lastComponent_eq {path : CString} {p pp : ℕ} (hcut : NameCut path.bytes p pp) :
    path.lastComponent = (path.bytes.drop p).take (pp + 1 - p) := by
  have hsplit := hcut.split_eq
  have htail := hcut.tail_slash
  have hfree := hcut.name_free
  have hlast := hcut.parent_last
  have hroot : (path.bytes.drop p).take (pp + 1 - p) = [] → path.bytes = [slash] := by
    intro hnil
    have hlength := hcut.length_name
    have hp := hcut.le
    rw [hnil, List.length_nil] at hlength
    exact hcut.root (by omega)
  generalize path.bytes.take p = parent at *
  generalize (path.bytes.drop p).take (pp + 1 - p) = name at *
  generalize path.bytes.drop (pp + 1) = tail at *
  rw [CString.lastComponent]
  by_cases hname : name = []
  · rw [hroot hname, hname]
    rfl
  · have hskip : ∀ c ∈ tail.reverse, decide (c = slash) = true := fun c hc =>
      decide_eq_true (htail c (List.mem_reverse.mp hc))
    have hkeep : ∀ c ∈ name.reverse, decide (c ≠ slash) = true := fun c hc =>
      decide_eq_true (by rintro rfl; exact hfree (List.mem_reverse.mp hc))
    have hstart : (name.reverse ++ parent.reverse).dropWhile (· = slash) =
        name.reverse ++ parent.reverse := by
      obtain ⟨c, cs, hrev⟩ := List.exists_cons_of_ne_nil (List.reverse_ne_nil_iff.mpr hname)
      rw [hrev, List.cons_append, List.dropWhile_cons_of_neg]
      simpa using hkeep c (hrev ▸ List.mem_cons_self)
    have hstop : parent.reverse.takeWhile (· ≠ slash) = [] := by
      rcases hlast with hnil | hend
      · rw [hnil]
        rfl
      · obtain ⟨init, rfl⟩ := List.getLast?_eq_some_iff.mp hend
        simp
    rw [hsplit, List.reverse_append, List.reverse_append, List.append_assoc,
      List.dropWhile_append_of_pos hskip, hstart, List.takeWhile_append_of_pos hkeep, hstop,
      List.append_nil, List.reverse_reverse]

/-- The first loop comes to the start of the path if and only if nothing but slashes is behind it. -/
theorem skipSlashes_eq_zero_iff {path : List UInt8} :
    skipSlashes path (path.length - 1) = 0 ↔ ∀ c ∈ path.tail, c = slash := by
  obtain ⟨hle, hall, hend⟩ := skipSlashes_spec path (path.length - 1)
  have hget (i : ℕ) (hi : i < path.tail.length) : path.tail[i] = path.getD (i + 1) 0 := by
    rw [List.getElem_tail, List.getD_eq_getElem]
  constructor
  · intro hzero c hc
    obtain ⟨i, hi, rfl⟩ := List.mem_iff_getElem.mp hc
    rw [hget i hi]
    rw [List.length_tail] at hi
    exact hall (i + 1) (by omega) (by omega)
  · intro hslashes
    by_contra hpos
    refine hend.resolve_left hpos ?_
    have hi : skipSlashes path (path.length - 1) - 1 < path.tail.length := by
      rw [List.length_tail]
      omega
    have hslash := hslashes _ (List.getElem_mem hi)
    rwa [hget _ hi, Nat.sub_add_cancel (Nat.pos_of_ne_zero hpos)] at hslash

/-- What `getname` stores and returns: the parent, the name and slashes make up the path, and the
name starts at the returned pointer. -/
structure PathParts (path : CString) (p : ℕ) (name parent : CString) : Prop where
  split : ∃ tail, path.bytes = parent.bytes ++ name.bytes ++ tail ∧ ∀ c ∈ tail, c = slash
  name_free : slash ∉ name.bytes
  name_lt : name.bytes.length < maxName
  parent_last : parent.bytes = [] ∨ parent.bytes.getLast? = some slash
  pointer : p = parent.bytes.length

/-- `getname` cuts every path that fits the path buffer in front of its last component, and returns
null for the empty path, for a longer one with nothing but slashes behind its first character, and
when the last component does not fit the name buffer. -/
theorem getname_splits {path : CString} (hlen : path.bytes.length < maxPath) :
    (∃ r, getnameAt (some path) = .ok r) ∧
    (∀ p name parent, getnameAt (some path) = .ok (some (p, name, parent)) →
      PathParts path p name parent) ∧
    (getnameAt (some path) = .ok none ↔ path.bytes = [] ∨
      (1 < path.bytes.length ∧ ∀ c ∈ path.bytes.tail, c = slash) ∨
      maxName ≤ path.lastComponent.length) := by
  rw [getnameAt]
  dsimp only
  rw [← List.length_eq_zero_iff, ← skipSlashes_eq_zero_iff]
  by_cases hempty : path.bytes.length = 0
  · rw [if_pos hempty]
    exact ⟨⟨_, rfl⟩, fun p name parent h => by simp at h, iff_of_true rfl (.inl hempty)⟩
  rw [if_neg hempty]
  by_cases hslashes : skipSlashes path.bytes (path.bytes.length - 1) = 0 ∧ path.bytes.length ≠ 1
  · rw [if_pos hslashes]
    exact ⟨⟨_, rfl⟩, fun p name parent h => by simp at h, iff_of_true rfl (.inr (.inl (by omega)))⟩
  rw [if_neg hslashes]
  have hcut := nameCut_of_loops hempty hslashes
  have hlast : path.lastComponent.length = _ :=
    (congrArg List.length hcut.lastComponent_eq).trans hcut.length_name
  have hfirst : ¬(1 < path.bytes.length ∧ skipSlashes path.bytes (path.bytes.length - 1) = 0) := by omega
  rw [hlast, or_iff_right hempty, or_iff_right hfirst, ← nameStart]
  generalize nameStart path.bytes (skipSlashes path.bytes (path.bytes.length - 1)) = p at *
  generalize skipSlashes path.bytes (path.bytes.length - 1) = pp at *
  have hpp := hcut.lt
  have hp := hcut.le
  by_cases hlong : maxName - 1 < pp + 1 - p
  · rw [if_pos hlong]
    exact ⟨⟨_, rfl⟩, fun p name parent h => by simp at h, iff_of_true rfl (Nat.lt_of_succ_le hlong)⟩
  · rw [if_neg hlong, if_neg (by omega)]
    have hfits : pp + 1 - p < maxName := Nat.lt_succ_of_le (Nat.not_lt.mp hlong)
    refine ⟨⟨_, rfl⟩, fun p' name parent h => ?_, iff_of_false (by simp) (Nat.not_le.mpr hfits)⟩
    obtain ⟨rfl, rfl, rfl⟩ : p = p' ∧ path.slice p (pp + 1 - p) = name ∧ path.slice 0 p = parent := by
      simpa using h
    have hname := hcut.nameOf hfits (by omega)
    refine ⟨⟨_, by rw [List.append_assoc]; exact hname.split, hname.tail⟩, hname.name_free,
      hname.name_lt, hname.parent_last, ?_⟩
    have hparent : (path.bytes.take p).length = p := List.length_take_of_le (by omega)
    exact hparent.symm

/-- The path `/a//`. -/
def pathSlashes : CString := ⟨[47, 97, 47, 47], by decide⟩

/-- The parts of a path with slashes behind its last component. -/
theorem getname_splits_slashes : pathSlashes.bytes.length < maxPath ∧
    ((∃ r, getnameAt (some pathSlashes) = .ok r) ∧
    (∀ p name parent, getnameAt (some pathSlashes) = .ok (some (p, name, parent)) →
      PathParts pathSlashes p name parent) ∧
    (getnameAt (some pathSlashes) = .ok none ↔ pathSlashes.bytes = [] ∨
      (1 < pathSlashes.bytes.length ∧ ∀ c ∈ pathSlashes.bytes.tail, c = slash) ∨
      maxName ≤ pathSlashes.lastComponent.length)) :=
  have hlen : pathSlashes.bytes.length < maxPath := by decide
  ⟨hlen, getname_splits hlen⟩

example : getnameAt (some pathSlashes) =
    .ok (some (1, pathSlashes.slice 1 1, pathSlashes.slice 0 1)) := by decide

end Hobby386
