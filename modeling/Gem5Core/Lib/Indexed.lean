import Mathlib.Data.List.DropRight

/-! A list whose positions are counted from a head: an element keeps its index while others
are taken away at either end. -/
namespace Gem5Core.Lib.Indexed
open List

variable {α β : Type*}

/-- The element with index `i`, if the first one has index `head`. -/
def lookup (head : Nat) (l : List α) (i : Nat) : Option α :=
  if head ≤ i then l[i - head]? else none

variable {head i j : Nat} {l : List α} {a b : α}

theorem lookup_add (head : Nat) (l : List α) (k : Nat) : lookup head l (head + k) = l[k]? := by
  simp [lookup]

theorem lookup_eq_some : lookup head l i = some a ↔ ∃ k, i = head + k ∧ l[k]? = some a := by
  constructor
  · intro h
    unfold lookup at h
    split at h
    · exact ⟨i - head, by omega, h⟩
    · cases h
  · rintro ⟨k, rfl, h⟩
    rwa [lookup_add]

theorem bounds_of_lookup (h : lookup head l i = some a) : head ≤ i ∧ i < head + l.length := by
  obtain ⟨k, rfl, hk⟩ := lookup_eq_some.mp h
  have := (List.getElem?_eq_some_iff.mp hk).1
  omega

theorem mem_of_lookup (h : lookup head l i = some a) : a ∈ l := by
  obtain ⟨k, -, hk⟩ := lookup_eq_some.mp h
  exact mem_of_getElem? hk

theorem exists_lookup_of_mem (head : Nat) (h : a ∈ l) : ∃ i, lookup head l i = some a := by
  obtain ⟨k, hk⟩ := mem_iff_getElem?.mp h
  exact ⟨head + k, by rwa [lookup_add]⟩

theorem exists_lookup_of_bounds (hlow : head ≤ i) (hhigh : i < head + l.length) :
    ∃ a, lookup head l i = some a := by
  refine ⟨l.get ⟨i - head, by omega⟩, ?_⟩
  rw [lookup, if_pos hlow, List.getElem?_eq_getElem, get_eq_getElem]

theorem lookup_concat (head : Nat) (l : List α) (a : α) (i : Nat) :
    lookup head (l ++ [a]) i = if i = head + l.length then some a else lookup head l i := by
  unfold lookup
  grind

theorem lookup_modify (h : lookup head l i = some a) (f : α → α) (j : Nat) :
    lookup head (l.modify (i - head) f) j = if j = i then some (f a) else lookup head l j := by
  unfold lookup at h ⊢
  grind

theorem some_of_ite {o : Option α} (h : (if j = i then some b else o) = some a) :
    j = i ∧ a = b ∨ j ≠ i ∧ o = some a := by
  split at h
  · next hj => exact .inl ⟨hj, (Option.some.inj h).symm⟩
  · next hj => exact .inr ⟨hj, h⟩

theorem lookup_map (f : α → β) (head : Nat) (l : List α) (i : Nat) :
    lookup head (l.map f) i = (lookup head l i).map f := by
  unfold lookup
  split <;> simp

theorem map_modify {f : α → α} {g : α → β} (hf : ∀ a, g (f a) = g a) (l : List α) (n : Nat) :
    (l.modify n f).map g = l.map g := by
  apply ext_getElem?
  intro k
  simp only [List.getElem?_map, List.getElem?_modify]
  split
  · cases l[k]? <;> simp [hf]
  · simp

theorem lookup_of_map_eq {f : α → β} {l' : List α} (hmap : l'.map f = l.map f)
    (h : lookup head l i = some a) : ∃ b, lookup head l' i = some b ∧ f b = f a := by
  have hget := lookup_map f head l' i
  rw [hmap, lookup_map, h] at hget
  exact Option.map_eq_some_iff.mp hget.symm

theorem lookup_drop (head n : Nat) (l : List α) (i : Nat) :
    lookup (head + n) (l.drop n) i = if head + n ≤ i then lookup head l i else none := by
  unfold lookup
  grind

theorem lookup_take (head n : Nat) (l : List α) (i : Nat) :
    lookup head (l.take n) i = if i < head + n then lookup head l i else none := by
  unfold lookup
  grind

theorem getElem?_of_forall₂ {R : α → β → Prop} {l' : List β} (h : List.Forall₂ R l l') {k : Nat}
    {b : β} (hb : l'[k]? = some b) : ∃ a, l[k]? = some a ∧ R a b := by
  induction h generalizing k with
  | nil => simp at hb
  | cons hab _ ih =>
    cases k with
    | zero =>
      obtain rfl : _ = b := by simpa using hb
      exact ⟨_, rfl, hab⟩
    | succ k => simpa using ih (by simpa using hb)

theorem lookup_of_forall₂ {R : α → β → Prop} {l' : List β} (h : List.Forall₂ R l l') {b : β}
    (hb : lookup head l' i = some b) : ∃ a, lookup head l i = some a ∧ R a b := by
  obtain ⟨k, rfl, hk⟩ := lookup_eq_some.mp hb
  rw [lookup_add]
  exact getElem?_of_forall₂ h hk

theorem map_eq_of_forall₂ {R : α → α → Prop} (f : α → β) (hR : ∀ a b, R a b → f b = f a)
    {l' : List α} (h : List.Forall₂ R l l') : l'.map f = l.map f := by
  induction h with
  | nil => rfl
  | cons hab _ ih => rw [map_cons, map_cons, hR _ _ hab, ih]

theorem lookup_of_rdropWhile {p : α → Bool} (h : lookup head (l.rdropWhile p) i = some a) :
    lookup head l i = some a := by
  obtain ⟨k, rfl, hk⟩ := lookup_eq_some.mp h
  rw [lookup_add, ← rdropWhile_append_rtakeWhile (p := p) (l := l),
    List.getElem?_append_left (List.getElem?_eq_some_iff.mp hk).1, hk]

theorem lookup_rdropWhile {p : α → Bool} (h : lookup head l i = some a) (ha : p a = false) :
    lookup head (l.rdropWhile p) i = some a := by
  obtain ⟨k, rfl, hk⟩ := lookup_eq_some.mp h
  rw [lookup_add]
  rw [← rdropWhile_append_rtakeWhile (p := p) (l := l)] at hk
  by_cases hlt : k < (l.rdropWhile p).length
  · rwa [List.getElem?_append_left hlt] at hk
  · rw [List.getElem?_append_right (Nat.le_of_not_lt hlt)] at hk
    have := mem_rtakeWhile_imp (mem_of_getElem? hk)
    simp [ha] at this

theorem rdropWhile_eq_filter {keep : α → Bool}
    (h : l.Pairwise fun a b => keep b = true → keep a = true) :
    l.rdropWhile (fun a => !keep a) = l.filter keep := by
  induction l using List.reverseRecOn with
  | nil => rfl
  | append_singleton l a ih =>
    obtain ⟨hl, -, hla⟩ := pairwise_append.mp h
    cases ha : keep a with
    | false => simp [ih hl, ha]
    | true =>
      have hall : l.filter keep = l :=
        filter_eq_self.mpr fun b hb => hla b hb a (mem_singleton_self a) ha
      simp [hall, ha]

theorem dropWhile_eq_filter {drop : α → Bool}
    (h : l.Pairwise fun a b => drop b = true → drop a = true) :
    l.dropWhile drop = l.filter fun a => !drop a := by
  induction l with
  | nil => rfl
  | cons a l ih =>
    obtain ⟨ha, hl⟩ := pairwise_cons.mp h
    cases hd : drop a with
    | true => simp [hd, ih hl]
    | false =>
      have hall : l.filter (fun b => !drop b) = l := by
        apply filter_eq_self.mpr
        intro b hb
        cases hb' : drop b with
        | false => rfl
        | true => simp [hd] at ha; simp [ha b hb] at hb'
      simp [hd, hall]

theorem lookup_append_right {l' : List α} (h : lookup (head + l.length) l' i = some a) :
    lookup head (l ++ l') i = some a := by
  obtain ⟨k, rfl, hk⟩ := lookup_eq_some.mp h
  rw [Nat.add_assoc, lookup_add, List.getElem?_append_right (Nat.le_add_right _ _),
    Nat.add_sub_cancel_left, hk]

theorem lookup_dropWhile {p : α → Bool} (h : lookup head l i = some a) (ha : p a = false) :
    lookup (head + (l.takeWhile p).length) (l.dropWhile p) i = some a := by
  obtain ⟨k, rfl, hk⟩ := lookup_eq_some.mp h
  rw [← takeWhile_append_dropWhile (p := p) (l := l)] at hk
  by_cases hlt : k < (l.takeWhile p).length
  · rw [List.getElem?_append_left hlt] at hk
    have hmem := mem_takeWhile_imp (mem_of_getElem? hk)
    exact absurd hmem (by simp [ha])
  · rw [List.getElem?_append_right (Nat.le_of_not_lt hlt)] at hk
    exact lookup_eq_some.mpr ⟨k - (l.takeWhile p).length, by omega, hk⟩

theorem pairwise_iff (head : Nat) {R : α → α → Prop} :
    l.Pairwise R ↔ ∀ i j a b, lookup head l i = some a → lookup head l j = some b → i < j → R a b := by
  rw [pairwise_iff_getElem]
  constructor
  · intro h i j a b hi hj hij
    obtain ⟨m, rfl, hm⟩ := lookup_eq_some.mp hi
    obtain ⟨n, rfl, hn⟩ := lookup_eq_some.mp hj
    obtain ⟨hm', rfl⟩ := List.getElem?_eq_some_iff.mp hm
    obtain ⟨hn', rfl⟩ := List.getElem?_eq_some_iff.mp hn
    exact h m n hm' hn' (by omega)
  · intro h m n hm hn hmn
    apply h (head + m) (head + n) _ _ _ _ (by omega)
    · rw [lookup_add, List.getElem?_eq_getElem]
    · rw [lookup_add, List.getElem?_eq_getElem]

theorem countP_modify (p : α → Bool) (f : α → α) (h : lookup head l i = some a) :
    (l.modify (i - head) f).countP p + (if p a then 1 else 0) =
      l.countP p + (if p (f a) then 1 else 0) := by
  obtain ⟨k, rfl, hk⟩ := lookup_eq_some.mp h
  rw [Nat.add_sub_cancel_left]
  clear h
  induction l generalizing k with
  | nil => simp at hk
  | cons x rest ih =>
    cases k with
    | zero =>
      obtain rfl : x = a := by simpa using hk
      simp only [modify_zero_cons, countP_cons]
      omega
    | succ k =>
      simp only [modify_succ_cons, countP_cons]
      have hk' : rest[k]? = some a := by simpa using hk
      have := ih k hk'
      omega

end Gem5Core.Lib.Indexed
