import Xv6.Umalloc.Lemmas.Malloc

/-!
# The loop of `malloc`

The loop goes once around the ring. It takes the first block that is large enough; if there is none it
asks for a region, and the block that then ends where the region ends is large enough.
-/

namespace Xv6.Umalloc

open Lib Function

variable {σ : Type} {sbrk : Int → EStateM Stop σ Int} {u : Task σ} {t : σ} {h : Heap} {l live regions : List Extents.Extent}
  {n nu p q r prevp fuel nbytes : Nat} {w : List Nat}

/-! ## Around the ring -/

theorem mallocLoop_walk (hlinks : Linked u.heap.ptr prevp w q) (hskip : ∀ x ∈ w, u.heap.size x < n ∧ x ≠ u.heap.freep) :
    mallocLoop sbrk n (fuel + w.length) prevp (u.heap.ptr prevp) u = mallocLoop sbrk n fuel (w.getLastD prevp) q u := by
  induction w generalizing prevp with
  | nil => rw [show u.heap.ptr prevp = q from hlinks]; rfl
  | cons b w ih =>
      obtain ⟨hsize, hne⟩ := hskip b List.mem_cons_self
      rw [List.getLastD_cons, ← ih hlinks.2 fun x hx => hskip x (List.mem_cons_of_mem b hx), hlinks.1, List.length_cons,
        ← Nat.add_assoc, mallocLoop]
      show (if n ≤ u.heap.size b then _ else if b = u.heap.freep then _ else _ : U σ Nat) u = _
      rw [if_neg (Nat.not_le.2 hsize), if_neg hne]

theorem mallocLoop_take (hfit : n ≤ u.heap.size p) : mallocLoop sbrk n (fuel + 1) prevp p u =
    .ok ((u.heap.take n prevp p).2 + headerSize) { u with heap := (u.heap.take n prevp p).1 } := by
  rw [mallocLoop]
  show (if n ≤ u.heap.size p then _ else _ : U σ Nat) u = _
  rw [if_pos hfit]
  rfl

theorem Ring.fromFreep (hr : Ring h l) :
    ∃ m, Linked h.ptr h.freep m h.freep ∧ (h.freep :: m).Perm (h.base :: l.map Prod.fst) ∧ h.freep ∉ m ∧ m.length = l.length := by
  obtain ⟨m, hm, hperm⟩ := hr.links.from hr.freep
  have hnd := hperm.nodup_iff.2 hr.nodup
  have hlen := Nat.succ.inj hperm.length_eq
  rw [List.length_map] at hlen
  exact ⟨m, hm, hperm, (List.nodup_cons.1 hnd).1, hlen⟩

/-- The loop takes a block if one is large enough. -/
theorem mallocLoop_fit (sbrk : Int → EStateM Stop σ Int) (hr : Ring u.heap l) (hn : 0 < n) (hfit : ∃ x ∈ l, n ≤ u.heap.size x.1) (hf : l.length < fuel) :
    ∃ l₁ x l₂, l = l₁ ++ x :: l₂ ∧ n ≤ u.heap.size x.1 ∧
      mallocLoop sbrk n fuel u.heap.freep (u.heap.ptr u.heap.freep) u =
        .ok ((u.heap.take n ((l₁.map Prod.fst).getLastD u.heap.base) x.1).2 + headerSize)
          { u with heap := (u.heap.take n ((l₁.map Prod.fst).getLastD u.heap.base) x.1).1 } := by
  obtain ⟨m, hm, hperm, hfreep, hlen⟩ := hr.fromFreep
  -- the first block from `freep` on that is large enough
  have hfirst : ∃ w q, Linked u.heap.ptr u.heap.freep w q ∧ (∀ x ∈ w, u.heap.size x < n ∧ x ∈ m) ∧ n ≤ u.heap.size q ∧
      q ∈ u.heap.freep :: m ∧ w.length ≤ m.length := by
    by_cases hex : ∃ q ∈ m, n ≤ u.heap.size q
    · obtain ⟨w, q, m', rfl, hq, hw⟩ := exists_first hex
      refine ⟨w, q, (Linked.append_iff.1 hm).1, fun x hx => ⟨Nat.lt_of_not_le (hw x hx), List.mem_append_left _ hx⟩, hq, ?_, ?_⟩
      · exact List.mem_cons_of_mem _ (List.mem_append_right _ List.mem_cons_self)
      · rw [List.length_append]
        exact Nat.le_add_right _ _
    · obtain ⟨x, hx, hfit⟩ := hfit
      have hx' : x.1 ∈ u.heap.freep :: m := hperm.mem_iff.2 (List.mem_cons_of_mem _ (List.mem_map_of_mem hx))
      have hxe : x.1 = u.heap.freep := (List.mem_cons.1 hx').resolve_right fun h₁ => hex ⟨x.1, h₁, hfit⟩
      refine ⟨m, u.heap.freep, hm, fun y hy => ⟨Nat.lt_of_not_le fun h₁ => hex ⟨y, hy, h₁⟩, hy⟩, hxe ▸ hfit, ?_, Nat.le_refl _⟩
      exact List.mem_cons_self
  obtain ⟨w, q, hw, hskip, hq, hqm, hwlen⟩ := hfirst
  have hqstart : q ∈ l.map Prod.fst := by
    refine (List.mem_cons.1 (hperm.mem_iff.1 hqm)).resolve_left ?_
    rintro rfl
    rw [hr.base] at hq
    omega
  obtain ⟨x, hx, rfl⟩ := List.mem_map.1 hqstart
  obtain ⟨l₁, l₂, rfl⟩ := List.append_of_mem hx
  refine ⟨l₁, x, l₂, rfl, hq, ?_⟩
  have hlinks := hr.links
  have hnodup := hr.nodup
  rw [List.map_append, List.map_cons] at hlinks hnodup
  have hprev : w.getLastD u.heap.freep = (l₁.map Prod.fst).getLastD u.heap.base := by
    refine hlinks.pred hnodup ?_ hw.last
    have h₁ := hperm.mem_iff (a := w.getLastD u.heap.freep)
    rw [List.map_append, List.map_cons] at h₁
    refine h₁.1 ?_
    rcases List.mem_cons.1 (getLastD_mem w u.heap.freep) with h₂ | h₂
    · rw [h₂]
      exact List.mem_cons_self
    · exact List.mem_cons_of_mem _ (hskip _ h₂).2
  obtain ⟨k, rfl⟩ : ∃ k, fuel = k + 1 + w.length := ⟨fuel - 1 - w.length, by omega⟩
  rw [mallocLoop_walk hw fun y hy => ⟨(hskip y hy).1, fun h₁ => hfreep (h₁ ▸ (hskip y hy).2)⟩, mallocLoop_take hq, hprev]

/-- The loop asks for a region if no block is large enough. -/
theorem mallocLoop_none (hr : Ring u.heap l) (hn : 0 < n) (hno : ∀ x ∈ l, u.heap.size x.1 < n) :
    mallocLoop sbrk n (fuel + 1 + l.length) u.heap.freep (u.heap.ptr u.heap.freep) u =
      (do
        let p ← morecore sbrk fuel n
        if p = 0 then pure 0
        else mallocLoop sbrk n fuel p ((← get).heap.ptr p) : U σ Nat) u := by
  obtain ⟨m, hm, hperm, hfreep, hlen⟩ := hr.fromFreep
  have hsmall : ∀ a ∈ u.heap.freep :: m, u.heap.size a < n := fun a ha => by
    rcases List.mem_cons.1 (hperm.mem_iff.1 ha) with rfl | ha
    · rw [hr.base]
      exact hn
    · obtain ⟨x, hx, rfl⟩ := List.mem_map.1 ha
      exact hno x hx
  rw [← hlen, mallocLoop_walk hm fun y hy => ⟨hsmall y (List.mem_cons_of_mem _ hy), fun h₁ => hfreep (h₁ ▸ hy)⟩, mallocLoop]
  show (if n ≤ u.heap.size u.heap.freep then _ else if u.heap.freep = u.heap.freep then _ else _ : U σ Nat) u = _
  rw [if_neg (Nat.not_le.2 (hsmall _ List.mem_cons_self)), if_pos rfl]

/-! ## `morecore` -/

/-- The region of `n` units at `r` is above all others, and sizes stay below 2^32. -/
structure Fresh (h : Heap) (regions : List Extents.Extent) (r n : Nat) : Prop where
  base : h.base < r
  le : ∀ x ∈ regions, x.1 + x.2 ≤ r
  total : (regions.map Prod.snd).sum + headerSize * n < headerSize * 2 ^ 32

theorem HeapOk.region (hok : HeapOk h l live regions) (hn : 0 < n) (hf : Fresh h regions r n) :
    HeapOk (h.setSize r n) l ((r, headerSize * n) :: live) ((r, headerSize * n) :: regions) := by
  have hpos := Nat.mul_pos (show 0 < headerSize by decide) hn
  have hlt : n < 2 ^ 32 := by
    have h₁ := hf.total
    unfold headerSize at h₁
    omega
  have hne : ∀ x ∈ l ++ live, x.1 ≠ r := fun x hx h₁ => by
    have h₂ := hok.stop_le hf.le hx
    have h₃ := hok.pos hx
    omega
  have hsize : ∀ a, a ≠ r → (h.setSize r n).size a = h.size a := fun a ha => update_of_ne ha ..
  refine ⟨⟨hok.ring.links, hok.ring.gaps, fun x hx => ?_, hok.ring.above, ?_, hok.ring.freep⟩, fun x hx => ?_, ?_, ?_, fun x hx => ?_⟩
  · rw [hsize x.1 (hne x (List.mem_append_left _ hx))]
    exact hok.ring.size x hx
  · rw [setSize_base, hsize _ (Nat.ne_of_lt hf.base)]
    exact hok.ring.base
  · rcases List.mem_cons.1 hx with rfl | hx
    · refine ⟨?_, hpos⟩
      rw [setSize_size, update_self, Nat.mod_eq_of_lt hlt]
    · rw [hsize x.1 (hne x (List.mem_append_right _ hx))]
      exact hok.sized x hx
  · exact (Extents.covers_perm List.perm_middle).trans (hok.perm.append_left _)
  · rw [Extents.covers_cons, List.nodup_append]
    refine ⟨List.nodup_range', hok.nodup, fun a ha b hb h₁ => ?_⟩
    obtain ⟨y, hy, h₂⟩ := Extents.mem_covers.1 hb
    have h₃ := Extents.mem_cover.1 ha
    have h₄ := Extents.mem_cover.1 h₂
    have h₅ := hf.le y hy
    simp only at h₃
    omega
  · rcases List.mem_cons.1 hx with rfl | hx
    · exact hf.base
    · exact hok.above x hx

theorem units_pos (n : Nat) : 0 < units n := by
  unfold units
  split <;> omega

theorem le_units (n : Nat) : n ≤ units n := by
  unfold units
  split <;> omega

theorem morecore_fail (hs : sbrk (toInt (units n * headerSize)) u.sys = .ok (-1) t) :
    morecore sbrk fuel n u = .ok 0 { u with sys := t } := by
  have hcall : callSbrk sbrk (toInt (units n * headerSize)) u = .ok (-1) { u with sys := t } := by
    unfold callSbrk
    rw [hs]
  show (EStateM.bind (callSbrk sbrk (toInt (units n * headerSize))) _) u = _
  rw [EStateM.bind, hcall]
  rfl

theorem morecore_ok (hok : HeapOk u.heap l live regions) (hfresh : Fresh u.heap regions r (units n)) (hf : l.length < fuel)
    (hs : sbrk (toInt (units n * headerSize)) u.sys = .ok (r : Int) t) :
    ∃ h', morecore sbrk fuel n u = .ok h'.freep ⟨h', t⟩ ∧ h'.base = u.heap.base ∧
      HeapOk h' (Extents.insert (r, headerSize * units n) l) live ((r, headerSize * units n) :: regions) := by
  have hreg := hok.region (units_pos n) hfresh
  have htotal := hfresh.total
  obtain ⟨h', hfree, hbase, hok'⟩ := hreg.free (by rw [List.map_cons, List.sum_cons, Nat.add_comm]; exact htotal) hf
  refine ⟨h', ?_, hbase, hok'⟩
  have hcall : callSbrk sbrk (toInt (units n * headerSize)) u = .ok (r : Int) { u with sys := t } := by
    unfold callSbrk
    rw [hs]
  have hr : ¬ (r : Int) = -1 := by omega
  show (EStateM.bind (callSbrk sbrk (toInt (units n * headerSize))) _) u = _
  rw [EStateM.bind, hcall]
  simp only [hr, if_false]
  show EStateM.bind (free fuel (r + headerSize)) _ ⟨u.heap.setSize r (units n), t⟩ = _
  have hcall' : free fuel (r + headerSize) (⟨u.heap.setSize r (units n), t⟩ : Task σ) = .ok () ⟨h', t⟩ := by
    have hget : ∀ u : Task σ, (get : U σ (Task σ)) u = .ok u u := fun _ => rfl
    simp only [free, bind, EStateM.bind, hget, hfree]
    rfl
  rw [EStateM.bind, hcall']
  rfl

/-! ## More steps -/

theorem Heap.free_mono {ap k : Nat} {h' : Heap} (hfree : h.free fuel ap = some h') (hle : fuel ≤ k) : h.free k ap = some h' := by
  unfold Heap.free at hfree ⊢
  cases hp : h.place (ap - headerSize) fuel h.freep with
  | none =>
      simp only [hp, Option.bind_eq_bind, Option.bind_none] at hfree
      cases hfree
  | some p =>
      have hp' : h.place (ap - headerSize) k h.freep = some p := by
        rw [place_eq_search] at hp ⊢
        exact search_mono hp hle
      simp only [hp, hp', Option.bind_eq_bind, Option.bind_some] at hfree ⊢
      exact hfree

theorem free_extends {ap k : Nat} (hle : fuel ≤ k) : Extends (free fuel ap : U σ Unit) (free k ap) := by
  refine (Extends.refl _).bind fun u => ?_
  cases hf : u.heap.free fuel ap with
  | none =>
      intro s a t h₁
      cases h₁
  | some h' =>
      rw [Heap.free_mono hf hle]
      exact .refl _

theorem morecore_extends {k : Nat} (hle : fuel ≤ k) : Extends (morecore sbrk fuel n) (morecore sbrk k n) :=
  (Extends.refl _).bind fun _ => .ite (.refl _) <| (Extends.refl _).bind fun _ => (free_extends hle).bind fun _ => .refl _

theorem mallocLoop_extends {k : Nat} (hle : fuel ≤ k) : Extends (mallocLoop sbrk n fuel prevp p) (mallocLoop sbrk n k prevp p) := by
  induction fuel generalizing k prevp p with
  | zero =>
      intro s a t h₁
      cases h₁
  | succ fuel ih =>
      obtain ⟨k, rfl⟩ : ∃ j, k = j + 1 := ⟨k - 1, by omega⟩
      have hle' := Nat.le_of_succ_le_succ hle
      refine (Extends.refl _).bind fun u => .ite (.refl _) (.ite ?_ (ih hle'))
      exact (morecore_extends hle').bind fun q => .ite (.refl _) ((Extends.refl _).bind fun v => ih hle')

theorem malloc_extends {k : Nat} (hle : fuel ≤ k) : Extends (malloc sbrk fuel nbytes) (malloc sbrk k nbytes) :=
  (Extends.refl _).bind fun _ => (Extends.refl _).bind fun _ => mallocLoop_extends hle

/-! ## `malloc` -/

/-- The heap at a call of `malloc`, which may be the first one. -/
structure Good (h : Heap) (l live regions : List Extents.Extent) : Prop where
  ok : HeapOk h.start l live regions
  base : 0 < h.base
  started : h.freep = 0 → live = []

/-- Some free block has `n` units. -/
def Fits (l : List Extents.Extent) (n : Nat) : Prop := ∃ x ∈ l, headerSize * n ≤ x.2

theorem Heap.start_base (h : Heap) : h.start.base = h.base := by
  unfold Heap.start
  split <;> rfl

theorem HeapOk.freep_ne (hok : HeapOk h l live regions) (hb : 0 < h.base) : h.freep ≠ 0 := fun h₀ => by
  have h₁ := hok.ring.freep
  rw [h₀] at h₁
  rcases List.mem_cons.1 h₁ with h₁ | h₁
  · omega
  · obtain ⟨x, hx, h₂⟩ := List.mem_map.1 h₁
    have h₃ := hok.ring.above x hx
    omega

theorem HeapOk.good (hok : HeapOk h l live regions) (hb : 0 < h.base) : Good h l live regions where
  ok := by
    rw [Heap.start, if_neg (hok.freep_ne hb)]
    exact hok
  base := hb
  started h₀ := absurd h₀ (hok.freep_ne hb)

theorem Good.heapOk {x : Extents.Extent} (hg : Good h l (x :: live) regions) : HeapOk h l (x :: live) regions := by
  have hne : h.freep ≠ 0 := fun h₀ => by cases hg.started h₀
  have hok := hg.ok
  rw [Heap.start, if_neg hne] at hok
  exact hok

theorem good_init (hb : 0 < h.base) (h₀ : h.freep = 0) : Good h [] [] [] where
  ok := by
    rw [Heap.start, if_pos h₀]
    refine ⟨⟨update_self .., List.Pairwise.nil, by simp, by simp, update_self .., List.mem_cons_self⟩,
      by simp, .refl _, List.nodup_nil, by simp⟩
  base := hb
  started _ := rfl

theorem nunits_eq (hn : nbytes < 2 ^ 32) : nunits nbytes = (nbytes + 15) / 16 + 1 := by
  unfold nunits headerSize
  rw [Nat.mod_eq_of_lt (by omega), Nat.add_sub_assoc (by omega)]

theorem malloc_eq (fuel nbytes : Nat) (u : Task σ) : malloc sbrk fuel nbytes u =
    mallocLoop sbrk (nunits nbytes) fuel u.heap.start.freep (u.heap.start.ptr u.heap.start.freep) { u with heap := u.heap.start } := rfl

theorem nunits_pos (hn : nbytes < 2 ^ 32) : 0 < nunits nbytes := by
  rw [nunits_eq hn]
  exact Nat.succ_pos _

section

variable (hg : Good u.heap l live regions) (hn : nbytes < 2 ^ 32)

include hg hn

theorem malloc_fit (sbrk : Int → EStateM Stop σ Int) (htotal : (regions.map Prod.snd).sum < headerSize * 2 ^ 32) (hfit : Fits l (nunits nbytes)) (hf : l.length < fuel) :
    ∃ q h' l', malloc sbrk fuel nbytes u = .ok (q + headerSize) { u with heap := h' } ∧
      Good h' l' ((q, headerSize * nunits nbytes) :: live) regions := by
  have hok : HeapOk ({ u with heap := u.heap.start } : Task σ).heap l live regions := hg.ok
  have hfit' : ∃ x ∈ l, nunits nbytes ≤ u.heap.start.size x.1 := by
    obtain ⟨x, hx, hle⟩ := hfit
    rw [(hok.ring.size x hx).1] at hle
    exact ⟨x, hx, Nat.le_of_mul_le_mul_left hle (by decide)⟩
  obtain ⟨l₁, x, l₂, rfl, hx, hloop⟩ := mallocLoop_fit sbrk hok.ring (nunits_pos hn) hfit' hf
  obtain ⟨l', ht⟩ := hok.take htotal (nunits_pos hn) hx
  refine ⟨_, _, l', (malloc_eq fuel nbytes u).trans hloop, ht.ok.good ?_⟩
  rw [ht.base]
  exact (Heap.start_base u.heap).symm ▸ hg.base

variable (hno : ¬ Fits l (nunits nbytes))

include hno

theorem malloc_none : malloc sbrk (fuel + 1 + l.length) nbytes u =
    (do
      let p ← morecore sbrk fuel (nunits nbytes)
      if p = 0 then pure 0
      else mallocLoop sbrk (nunits nbytes) fuel p ((← get).heap.ptr p) : U σ Nat) { u with heap := u.heap.start } := by
  have hok : HeapOk ({ u with heap := u.heap.start } : Task σ).heap l live regions := hg.ok
  rw [malloc_eq]
  refine mallocLoop_none hok.ring (nunits_pos hn) fun x hx => Nat.lt_of_not_le fun hle => hno ⟨x, hx, ?_⟩
  rw [(hok.ring.size x hx).1]
  exact Nat.mul_le_mul_left _ hle

theorem malloc_fail (hs : sbrk (toInt (units (nunits nbytes) * headerSize)) u.sys = .ok (-1) t) :
    malloc sbrk (fuel + 1 + l.length) nbytes u = .ok 0 ⟨u.heap.start, t⟩ := by
  rw [malloc_none hg hn hno]
  show EStateM.bind (morecore sbrk fuel (nunits nbytes)) _ _ = _
  rw [EStateM.bind, morecore_fail (u := { u with heap := u.heap.start }) hs]
  rfl

theorem malloc_grow (hfresh : Fresh u.heap regions r (units (nunits nbytes)))
    (hs : sbrk (toInt (units (nunits nbytes) * headerSize)) u.sys = .ok (r : Int) t) (hf : l.length + 1 < fuel) :
    ∃ h' l', malloc sbrk (fuel + 1 + l.length) nbytes u =
        .ok (r + headerSize * (units (nunits nbytes) - nunits nbytes) + headerSize) ⟨h', t⟩ ∧
      Good h' l' ((r + headerSize * (units (nunits nbytes) - nunits nbytes), headerSize * nunits nbytes) :: live)
        ((r, headerSize * units (nunits nbytes)) :: regions) := by
  have hok : HeapOk ({ u with heap := u.heap.start } : Task σ).heap l live regions := hg.ok
  have hfresh' : Fresh ({ u with heap := u.heap.start } : Task σ).heap regions r (units (nunits nbytes)) :=
    ⟨(Heap.start_base u.heap).symm ▸ hfresh.base, hfresh.le, hfresh.total⟩
  obtain ⟨h₁, hcall, hbase, hok₁⟩ := morecore_ok (n := nunits nbytes) hok hfresh' (Nat.lt_of_succ_lt hf) hs
  have hb : 0 < h₁.base := by
    rw [hbase]
    exact (Heap.start_base u.heap).symm ▸ hg.base
  have hle := le_units (nunits nbytes)
  generalize units (nunits nbytes) = N at *
  -- only the block that ends with the region is large enough
  have hpos : ∀ x ∈ l, 0 < x.2 := fun x hx => hok.pos (List.mem_append_left _ hx)
  have hbelow : ∀ x ∈ l, x.1 + x.2 ≤ r := fun x hx => hok.stop_le hfresh.le (List.mem_append_left _ hx)
  have hend : ∀ x ∈ Extents.insert (r, headerSize * N) l, x ∈ l ∨ x.1 + x.2 = r + headerSize * N := fun x hx =>
    Extents.mem_insert_of_le hok.ring.gaps hpos hbelow hx
  have hfit : ∃ x ∈ Extents.insert (r, headerSize * N) l, nunits nbytes ≤ h₁.size x.1 := by
    have hr : r ∈ Extents.covers (Extents.insert (r, headerSize * N) l) := by
      refine (Extents.covers_insert _ l).mem_iff.2 (List.mem_append_left _ (Extents.mem_cover.2 ⟨Nat.le_refl _, ?_⟩))
      exact Nat.lt_add_of_pos_right (Nat.mul_pos (by decide) (Nat.lt_of_lt_of_le (nunits_pos hn) hle))
    obtain ⟨x, hx, hrx⟩ := Extents.mem_covers.1 hr
    have h₂ := Extents.mem_cover.1 hrx
    have h₃ : x.1 + x.2 = r + headerSize * N := (hend x hx).resolve_left fun hx' => by
      have h₄ := hbelow x hx'
      omega
    have h₄ := (hok₁.ring.size x hx).1
    have h₅ : headerSize * N ≤ headerSize * h₁.size x.1 := by omega
    exact ⟨x, hx, Nat.le_trans hle (Nat.le_of_mul_le_mul_left h₅ (by decide))⟩
  obtain ⟨l₁, x, l₂, hl, hx, hloop⟩ := mallocLoop_fit (u := ⟨h₁, t⟩) sbrk hok₁.ring (nunits_pos hn) hfit
    (Nat.lt_of_le_of_lt (Extents.length_insert_le _ _) hf)
  have hmem : x ∈ Extents.insert (r, headerSize * N) l := by
    rw [hl]
    exact List.mem_append_right _ List.mem_cons_self
  have hstop : x.1 + x.2 = r + headerSize * N := (hend x hmem).resolve_left fun hx' => hno ⟨x, hx', by
    rw [(hok₁.ring.size x hmem).1]
    exact Nat.mul_le_mul_left _ hx⟩
  rw [hl] at hok₁
  obtain ⟨l', ht⟩ := hok₁.take (by rw [List.map_cons, List.sum_cons, Nat.add_comm]; exact hfresh.total) (nunits_pos hn) hx
  have hq := ht.stop
  rw [hstop] at hq
  have hq' : (h₁.take (nunits nbytes) ((l₁.map Prod.fst).getLastD h₁.base) x.1).2 = r + headerSize * (N - nunits nbytes) := by
    rw [Nat.mul_sub]
    have h₂ := Nat.mul_le_mul_left headerSize hle
    omega
  rw [hq'] at ht
  refine ⟨_, l', ?_, ht.ok.good (by rw [ht.base]; exact hb)⟩
  have hne := (hl ▸ hok₁).freep_ne hb
  rw [malloc_none hg hn hno]
  show EStateM.bind (morecore sbrk fuel (nunits nbytes)) _ _ = _
  rw [EStateM.bind, hcall]
  simp only [hne, if_false]
  refine Eq.trans hloop ?_
  rw [hq']

end

end Xv6.Umalloc
