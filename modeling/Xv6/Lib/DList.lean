import Mathlib

/-!
# Circular doubly-linked lists through a sentinel

Nodes of a type `β` point forward and back by two functions `nx` and `pv`, as C code
keeps them in `next` and `prev` fields. A sentinel `h` and the list `l` of the other
nodes form a circular list when `h, l, h` is a chain of links, each node pointing
forward to the next and the next back to it (`Cycle`).

The two splices C code makes are translated statement by statement: `unlink` takes a
node out (`b->next->prev = b->prev; b->prev->next = b->next`), `pushFront` puts one
right after the sentinel. Each keeps the list circular (`Cycle.unlink`,
`Cycle.pushFront`), because it rewrites only the links on either side of the splice
(`isChain_link_congr`). A walk that follows the links from the sentinel for at most
`fuel` nodes sees the list in order, forward or backward (`Cycle.find`,
`Cycle.reverse`).

Nothing here names the kernel.
-/

namespace DList

variable {β : Type}

/-- `x` points forward to `y`, and `y` back to `x`. -/
def Link (nx pv : β → β) (x y : β) : Prop := nx x = y ∧ pv y = x

/-- From the sentinel `h` through `l` and back to `h`, every node links to the next. -/
def Cycle (nx pv : β → β) (h : β) (l : List β) : Prop := List.IsChain (Link nx pv) (h :: l ++ [h])

/-- The links of a chain are the only pointers it reads: other pointers may change. -/
theorem isChain_link_congr {nx pv nx' pv' : β → β} :
    ∀ {s : List β}, List.IsChain (Link nx pv) s → (∀ x ∈ s.dropLast, nx' x = nx x) →
      (∀ y ∈ s.tail, pv' y = pv y) → List.IsChain (Link nx' pv') s
  | [], _, _, _ => .nil
  | [_], _, _, _ => .singleton _
  | x :: y :: s, hc, hnx, hpv => by
    rw [List.isChain_cons_cons] at hc ⊢
    obtain ⟨⟨hxy, hyx⟩, hc⟩ := hc
    refine ⟨⟨?_, ?_⟩, isChain_link_congr hc (fun z hz => hnx z ?_) (fun z hz => hpv z ?_)⟩
    · rw [hnx x (by simp), hxy]
    · rw [hpv y (by simp), hyx]
    · rw [List.dropLast_cons_cons]
      exact List.mem_cons_of_mem _ hz
    · exact List.mem_cons_of_mem _ hz

variable {nx pv : β → β} {h : β}

theorem Cycle.reverse {l : List β} (hc : Cycle nx pv h l) : Cycle pv nx h l.reverse := by
  unfold Cycle at hc ⊢
  have hrev : h :: l.reverse ++ [h] = (h :: l ++ [h]).reverse := by simp
  rw [hrev, List.isChain_reverse]
  exact hc.imp fun _ _ hxy => hxy.symm

/-- The node after the sentinel is the first of the list, or the sentinel itself. -/
theorem Cycle.next_head {l : List β} (hc : Cycle nx pv h l) : nx h = (l ++ [h]).head (by simp) := by
  unfold Cycle at hc
  cases l with
  | nil => exact (List.isChain_cons_cons.mp hc).1.1
  | cons x l => exact (List.isChain_cons_cons.mp hc).1.1

variable [DecidableEq β]

/-- `b->next->prev = b->prev; b->prev->next = b->next;` -/
def unlink (nx pv : β → β) (b : β) : (β → β) × (β → β) :=
  let pv' := Function.update pv (nx b) (pv b)
  (Function.update nx (pv' b) (nx b), pv')

/-- `b->next = h->next; b->prev = h; h->next->prev = b; h->next = b;` -/
def pushFront (h : β) (nx pv : β → β) (b : β) : (β → β) × (β → β) :=
  let nx' := Function.update nx b (nx h)
  let pv' := Function.update (Function.update pv b h) (nx' h) b
  (Function.update nx' h b, pv')

/-- Follow `step` from `x`, for at most `fuel` nodes and not past the sentinel `h`, to
the first node that satisfies `p`. -/
def find (step : β → β) (h : β) (p : β → Bool) : Nat → β → Option β
  | 0, _ => none
  | k + 1, x => if x = h then none else if p x then some x else find step h p k (step x)

/-- The walk from the node after `x` along a chain that ends at the sentinel. -/
theorem find_chain (p : β → Bool) :
    ∀ (l : List β) (x : β) (fuel : Nat), h ∉ l → l.length < fuel →
      List.IsChain (Link nx pv) (x :: l ++ [h]) → find nx h p fuel (nx x) = l.find? p
  | [], x, fuel, _, hfuel, hc => by
    obtain ⟨k, rfl⟩ := Nat.exists_eq_add_of_lt hfuel
    rw [(List.isChain_cons_cons.mp hc).1.1]
    simp [find]
  | y :: l, x, fuel, hh, hfuel, hc => by
    obtain ⟨k, rfl⟩ := Nat.exists_eq_add_of_lt hfuel
    simp only [List.cons_append] at hc
    rw [List.isChain_cons_cons] at hc
    obtain ⟨⟨hxy, -⟩, hc⟩ := hc
    have hy : y ≠ h := fun hy => hh (hy ▸ List.mem_cons_self)
    have ih := find_chain p l y (l.length + k + 1) (fun hl => hh (List.mem_cons_of_mem _ hl))
      (by omega) hc
    rw [hxy, List.length_cons, show l.length + 1 + k + 1 = l.length + k + 1 + 1 by omega]
    show (if y = h then none else if p y then some y else find nx h p (l.length + k + 1) (nx y)) = _
    rw [if_neg hy]
    by_cases hp : p y
    · simp [hp]
    · rw [if_neg hp, ih]
      simp [hp]

/-- A walk with fuel for every node sees the list in order. -/
theorem Cycle.find {l : List β} (hc : Cycle nx pv h l) (hh : h ∉ l) (p : β → Bool)
    {fuel : Nat} (hfuel : l.length < fuel) : DList.find nx h p fuel (nx h) = l.find? p :=
  find_chain p l h fuel hh hfuel hc

section splice

variable {b : β}

/-- Taking `b` out leaves the rest of the list circular. -/
theorem Cycle.unlink {l₁ l₂ : List β} (hc : Cycle nx pv h (l₁ ++ b :: l₂))
    (hnd : (h :: l₁ ++ b :: l₂).Nodup) :
    Cycle (DList.unlink nx pv b).1 (DList.unlink nx pv b).2 h (l₁ ++ l₂) := by
  -- the chain is `h :: l₁`, then `b`, then `l₂ ++ [h]`; `a` and `d` are `b`'s neighbours
  have hA : h :: l₁ ≠ [] := List.cons_ne_nil _ _
  have hD : l₂ ++ [h] ≠ [] := by simp
  set a := (h :: l₁).getLast hA
  set d := (l₂ ++ [h]).head hD
  unfold Cycle at hc ⊢
  rw [show h :: (l₁ ++ b :: l₂) ++ [h] = (h :: l₁) ++ b :: (l₂ ++ [h]) by simp] at hc
  obtain ⟨hcA, hbD, hab⟩ := List.isChain_append.mp hc
  have hab : Link nx pv a b := hab a (List.getLast?_eq_some_getLast hA) b rfl
  have hcD : List.IsChain (Link nx pv) (l₂ ++ [h]) := hbD.tail
  have hbd : Link nx pv b d := by
    rw [← List.cons_head_tail hD] at hbD
    exact (List.isChain_cons_cons.mp hbD).1
  -- what `unlink` writes: `a` now points to `d` and back
  have hu : DList.unlink nx pv b = (Function.update nx a d, Function.update pv d a) := by
    have hpv : Function.update pv d a b = a := by
      rw [Function.update_apply]
      split_ifs
      · rfl
      · exact hab.2
    simp only [DList.unlink, hbd.1, hab.2, hpv]
  -- the neighbours occur once each where the new chain reads its links
  rw [List.nodup_append] at hnd
  obtain ⟨hnd₁, hnd₂, hdisj⟩ := hnd
  have ha_mem : a ∈ h :: l₁ := List.getLast_mem hA
  have hd_mem : d ∈ l₂ ++ [h] := List.head_mem hD
  have hnd_D : (l₂ ++ [h]).Nodup :=
    List.nodup_append.mpr ⟨(List.nodup_cons.mp hnd₂).2, by simp,
      fun x hx y hy hxy => by
        rw [List.mem_singleton] at hy
        rw [hxy, hy] at hx
        exact hdisj h List.mem_cons_self h (List.mem_cons_of_mem _ hx) rfl⟩
  have ha_last : a ∉ (h :: l₁).dropLast := by
    have := List.dropLast_concat_getLast hA
    rw [← this, List.nodup_append] at hnd₁
    exact fun ha => hnd₁.2.2 a ha a (List.mem_singleton_self a) rfl
  have hd_tail : d ∉ (l₂ ++ [h]).tail := by
    rw [← List.cons_head_tail hD] at hnd_D
    exact (List.nodup_cons.mp hnd_D).1
  rw [hu, show h :: (l₁ ++ l₂) ++ [h] = (h :: l₁) ++ (l₂ ++ [h]) by simp, List.isChain_append]
  refine ⟨isChain_link_congr hcA (fun x hx => ?_) (fun y hy => ?_),
    isChain_link_congr hcD (fun x hx => ?_) (fun y hy => ?_), ?_⟩
  · exact Function.update_of_ne (fun hxa => ha_last (by rw [← hxa]; exact hx)) _ _
  · refine Function.update_of_ne (fun hyd => ?_) _ _
    rw [List.tail_cons] at hy
    have hy' := hd_mem
    rw [← hyd] at hy'
    rcases List.mem_append.mp hy' with hy' | hy'
    · exact hdisj y (List.mem_cons_of_mem _ hy) y (List.mem_cons_of_mem _ hy') rfl
    · rw [List.mem_singleton] at hy'
      exact (List.nodup_cons.mp hnd₁).1 (hy' ▸ hy)
  · refine Function.update_of_ne (fun hxa => ?_) _ _
    rw [List.dropLast_concat] at hx
    exact hdisj a ha_mem x (List.mem_cons_of_mem _ hx) hxa.symm
  · exact Function.update_of_ne (fun hyd => hd_tail (by rw [← hyd]; exact hy)) _ _
  · intro x hx y hy
    rw [List.getLast?_eq_some_getLast hA, Option.mem_some_iff] at hx
    rw [List.head?_eq_some_head hD, Option.mem_some_iff] at hy
    subst hx hy
    exact ⟨Function.update_self _ _ _, Function.update_self _ _ _⟩

/-- A node not on the list goes in right after the sentinel. -/
theorem Cycle.pushFront {l : List β} (hc : Cycle nx pv h l) (hnd : (h :: l).Nodup)
    (hb : b ∉ h :: l) :
    Cycle (DList.pushFront h nx pv b).1 (DList.pushFront h nx pv b).2 h (b :: l) := by
  have hD : l ++ [h] ≠ [] := by simp
  set f := (l ++ [h]).head hD
  have hf : nx h = f := hc.next_head
  have hbh : b ≠ h := fun hbh => hb (hbh ▸ List.mem_cons_self)
  have hbf : b ≠ f := fun hbf => hb (by
    have hfm : f ∈ l ++ [h] := List.head_mem hD
    rw [← hbf] at hfm
    rcases List.mem_append.mp hfm with h' | h'
    · exact List.mem_cons_of_mem _ h'
    · rw [List.mem_singleton] at h'
      exact h' ▸ List.mem_cons_self)
  -- what `pushFront` writes: `h` points to `b`, and `b` to `f`
  have hp : DList.pushFront h nx pv b =
      (Function.update (Function.update nx b f) h b,
        Function.update (Function.update pv b h) f b) := by
    simp only [DList.pushFront, Function.update_of_ne hbh.symm, hf]
  have hnd_D : (l ++ [h]).Nodup := by
    rw [List.nodup_cons] at hnd
    exact List.nodup_append.mpr ⟨hnd.2, by simp, fun x hx y hy hxy => by
      rw [List.mem_singleton] at hy
      exact hnd.1 (hy ▸ hxy ▸ hx)⟩
  have hf_tail : f ∉ (l ++ [h]).tail := by
    rw [← List.cons_head_tail hD] at hnd_D
    exact (List.nodup_cons.mp hnd_D).1
  unfold Cycle at hc ⊢
  have hcD : List.IsChain (Link nx pv) (l ++ [h]) := hc.tail
  rw [hp, show h :: (b :: l) ++ [h] = h :: b :: (l ++ [h]) by simp, List.isChain_cons_cons,
    List.isChain_cons]
  dsimp only
  refine ⟨⟨Function.update_self _ _ _, ?_⟩, fun y hy => ?_, isChain_link_congr hcD
    (fun x hx => ?_) (fun y hy => ?_)⟩
  · rw [Function.update_of_ne hbf, Function.update_self]
  · rw [List.head?_eq_some_head hD, Option.mem_some_iff] at hy
    subst hy
    exact ⟨by rw [Function.update_of_ne hbh, Function.update_self], Function.update_self _ _ _⟩
  · rw [List.dropLast_concat] at hx
    have hxh : x ≠ h := fun hxh => (List.nodup_cons.mp hnd).1 (hxh ▸ hx)
    have hxb : x ≠ b := fun hxb => hb (List.mem_cons_of_mem _ (hxb ▸ hx))
    rw [Function.update_of_ne hxh, Function.update_of_ne hxb]
  · have hyf : y ≠ f := fun hyf => hf_tail (hyf ▸ hy)
    have hyb : y ≠ b := fun hyb => by
      rcases List.mem_append.mp (List.mem_of_mem_tail (hyb ▸ hy)) with h' | h'
      · exact hb (List.mem_cons_of_mem _ h')
      · rw [List.mem_singleton] at h'
        exact hbh h'
    rw [Function.update_of_ne hyf, Function.update_of_ne hyb]

end splice

end DList
