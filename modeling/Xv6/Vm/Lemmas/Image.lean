import Xv6.Vm.Lemmas.ProcTable

/-!
# Building the image of a user

A new page table shows an image when its entries have the flags of the image and the pages behind
them its bytes. Each page belongs to the page table alone, so a write to one changes neither another
page of the image nor anything outside it.
-/

namespace Xv6.Vm

open Xv6.Lib Function

variable {top : Nat} {f g h : View} {s t u : Ram} {a p r r' v v' n off oldsz newsz : Nat} {x perm xperm : Pte} {m m' : Image}
  {E : Stop → Ram → Prop}

/-! ## Pages with one reference -/

theorem Inv.unique (hI : Inv top g s) (href : s.ref (g.page r v) = 1) (hv : v < top) (hm : g.Mapped r v)
    (hv' : v' < top) (hm' : g.Mapped r' v') (hp : g.page r' v' = g.page r v) : r' = r ∧ v' = v := by
  have hu := hI.count.user r v hv hm
  have hcard : (g.maps top (g.page r v)).card ≤ 1 := by
    have h₁ := hI.count.ref _ (managed_of_role hI.tree hu (by simp))
    rw [refs_of_user hu, mapCount_eq_card] at h₁
    omega
  have h₁ := hI.tree.mem_maps_of_mapped hv hm
  have h₂ := hI.tree.mem_maps_of_mapped hv' hm'
  rw [hp] at h₂
  have h₃ := Finset.card_le_one.1 hcard _ h₂ _ h₁
  exact ⟨congrArg Prod.fst h₃, congrArg Prod.snd h₃⟩

theorem write_mem_self (s : Ram) (p off : Nat) (b : List (BitVec 8)) :
    (s.write p off b).mem p = blit (s.mem p) off (fun i => b.getD i 0) 0 b.length := update_self ..

theorem write_mem_of_ne {q : Nat} (hne : q ≠ p) (off : Nat) (b : List (BitVec 8)) :
    (s.write p off b).mem q = s.mem q := update_of_ne hne _ _

theorem Inv.write (hI : Inv top g s) (hp : g.role p = .kern ∨ g.role p = .user) (off : Nat) (b : List (BitVec 8)) :
    Inv top g (s.write p off b) := hI.setMem hp _

theorem Frame.write (hI : Inv top g s) (href : s.ref (g.page r v) = 1) (hv : v < top) (hm : g.Mapped r v) (off : Nat)
    (b : List (BitVec 8)) : Frame top (one r v) g s g (s.write (g.page r v) off b) where
  leaf _ _ _ := rfl
  mem _ _ hn hv' hm' := write_mem_of_ne (fun he => hn (hI.unique href hv hm hv' hm' he)) _ _
  kfail := id
  kend := rfl
  trampoline := rfl

theorem Apart.write (R : Set Nat) (hp : g.role p = .user) (off : Nat) (b : List (BitVec 8)) :
    Apart R g s g (s.write p off b) :=
  .of_role R rfl (fun _ hq => write_mem_of_ne (ne_of_role hq hp (by simp)) _ _) fun _ => rfl

/-! ## Images -/

/-- The page table `r` shows the image `m`. -/
structure Shows (h : View) (t : Ram) (r : Nat) (m : Image) : Prop where
  leaf : ∀ v, v < m.npages → ∃ p, IsPage p ∧ h.leaf r v = pa2pte p ||| m.flags v ||| pteV
  perm : ∀ v, v < m.npages → IsPerm (m.flags v)
  within : h.Within r m.npages
  top : h.HidesTop r
  byte : ∀ a, a < m.npages * pgSize → t.mem (h.page r (a / pgSize)) (a % pgSize) = m.byte a

theorem Shows.mapped (hs : Shows h t r m) (hv : v < m.npages) : h.Mapped r v := by
  obtain ⟨p, -, hl⟩ := hs.leaf v hv
  unfold View.Mapped
  rw [hl]
  exact make_perm_has_pteV _ _

theorem getLsbD_leaf (hs : Shows h t r m) (hv : v < m.npages) {i : Nat} (hi : i < 10) (h₀ : i ≠ 0) :
    (h.leaf r v).getLsbD i = (m.flags v).getLsbD i := by
  obtain ⟨p, -, hl⟩ := hs.leaf v hv
  rw [hl, BitVec.or_assoc, getLsbD_make hi, BitVec.getLsbD_or, getLsbD_pteV]
  simp [h₀]

/-- The new page table `r` shows `m`, and the pages it took were free in `s`. -/
structure Building (g : View) (s : Ram) (r : Nat) (m : Image) (h : View) (t : Ram) : Prop
    extends Planted userPages g s r h t, Shows h t r m where
  own : ∀ v, v < m.npages → t.ref (h.page r v) = 1
  room : m.npages + t.freelist.length + 1 ≤ s.freelist.length
  used : s.freelist.length ≤ t.freelist.length + 5 + 3 * m.npages

theorem NewTable.building {tf : Nat} (hn : NewTable userPages g s tf r h t) : Building g s r .empty h t where
  toPlanted := hn.planted
  leaf v hv := absurd hv (Nat.not_lt_zero v)
  perm v hv := absurd hv (Nat.not_lt_zero v)
  within := hn.within
  top := hn.hidesTop
  own v hv := absurd hv (Nat.not_lt_zero v)
  byte a ha := absurd ha (by rw [show Image.empty.npages = 0 from rfl, Nat.zero_mul]; exact Nat.not_lt_zero a)
  room := by
    have h₁ := hn.length.1
    show 0 + t.freelist.length + 1 ≤ _
    omega
  used := by
    have h₁ := hn.length.2
    omega

/-- There are fewer free pages than virtual page numbers. -/
theorem Inv.freelist_length (hI : Inv top g s) : s.freelist.length ≤ 261632 := by
  have hsub : s.freelist.map (· / pgSize) ⊆ List.range' (kernBase / pgSize) 261632 := by
    intro x hx
    obtain ⟨p, hp, rfl⟩ := List.mem_map.1 hx
    obtain ⟨h₁, h₂, h₃⟩ := managed_of_role hI.tree ((hI.tree.free p).1 hp) (by simp)
    have h₄ := hI.tree.base
    rw [physTop_eq] at h₃
    rw [kernBase_eq] at h₄ ⊢
    rw [List.mem_range'_1]
    unfold pgSize
    omega
  have hnd : (s.freelist.map (· / pgSize)).Nodup := by
    refine List.Nodup.map_on ?_ hI.tree.nodup
    intro p hp q hq he
    obtain ⟨h₁, -, -⟩ := managed_of_role hI.tree ((hI.tree.free p).1 hp) (by simp)
    obtain ⟨h₂, -, -⟩ := managed_of_role hI.tree ((hI.tree.free q).1 hq) (by simp)
    have he' : p / pgSize = q / pgSize := he
    unfold pgSize at *
    omega
  have h₁ := (hnd.subperm hsub).length_le
  rwa [List.length_map, List.length_range'] at h₁

theorem userPages_eq : userPages = 67108862 := rfl

theorem Building.npages_lt (hb : Building g s r m h t) (hI : Inv userPages g s) :
    m.npages + t.freelist.length < userPages := by
  have h₁ := hb.room
  have h₂ := hI.freelist_length
  rw [userPages_eq]
  omega

/-! ## `proc_freepagetable` -/

theorem procFreepagetable_undo {sz : Nat} (hp : Planted userPages g s r h t) (hI : Inv userPages g s)
    (hw : h.Within r (npages sz)) (hsz : npages sz ≤ userPages) :
    wp (procFreepagetable r sz) (fun _ u => ∃ f, Same userPages ∅ g s f u) E t := by
  refine wp_post (procFreepagetable_spec hp.inv hp.root hw hsz (Nat.le_refl _)) ?_
  rintro _ u ⟨f, hr⟩
  exact ⟨f, hp.undo hI hr⟩

/-! ## `uvmalloc` -/

theorem Planted.change {X : Nat → Nat → Prop} (hp : Planted top g s r h t) (hc : Change top {r} X h t f u)
    (hX : ∀ r' v, X r' v → r' = r) : Planted top g s r f u where
  inv := hc.inv
  frame := hp.frame.trans (hc.frame.mono hX)
  free := hp.free
  root := hc.root hp.root
  kern := hc.kern.trans hp.kern
  roots := hc.roots.trans hp.roots
  leak := hc.leak.trans hp.leak
  apart := hp.apart.trans hc.apart

theorem Shows.page_eq {X : Nat → Nat → Prop} (hs : Shows h t r m) (hf : Frame top X h t f u) (hv : v < m.npages)
    (htop : v < top) (hn : ¬ X r v) :
    f.leaf r v = h.leaf r v ∧ f.page r v = h.page r v ∧ u.mem (h.page r v) = t.mem (h.page r v) :=
  ⟨hf.leaf r v hn, hf.page hn, hf.mem r v hn htop (hs.mapped hv)⟩

theorem Building.grow (hb : Building g s r m h t) (hI : Inv userPages g s)
    (hg : Grown userPages h t r m.npages n perm f u) (hn : m.npages ≤ n) (hperm : IsPerm perm) :
    Building g s r (m.grow n perm) f u := by
  have hlt := hb.npages_lt hI
  have hlen := hg.length
  have hmax : max m.npages n = n := Nat.max_eq_right hn
  have hold : ∀ v, v < m.npages → _ := fun v hv =>
    hb.toShows.page_eq hg.frame hv (by omega) fun hx => absurd hx.2.1 (Nat.not_le.2 hv)
  have hnew : ∀ v, v < n → ¬ v < m.npages → ∃ p, IsPage p ∧ f.leaf r v = pa2pte p ||| perm ||| pteV ∧
      f.page r v = p ∧ (u.mem p = fun _ => 0) ∧ u.ref p = 1 := by
    intro v hv hv'
    obtain ⟨p, hp, hl, hz, hone⟩ := hg.fresh v (Nat.not_lt.1 hv') hv
    refine ⟨p, hp, hl, ?_, hz, hone⟩
    unfold View.page
    rw [hl, pte2pa_make_perm hp hperm]
  refine ⟨hb.toPlanted.change hg.toChange fun _ _ hx => hx.1, ⟨?_, ?_, ?_, ?_, ?_⟩, ?_, ?_, ?_⟩
  · intro v (hv : v < max m.npages n)
    rw [hmax] at hv
    by_cases hv' : v < m.npages
    · obtain ⟨p, hp, hl⟩ := hb.leaf v hv'
      exact ⟨p, hp, by rw [(hold v hv').1, hl, Image.grow_flags, if_pos hv']⟩
    · obtain ⟨p, hp, hl, -⟩ := hnew v hv hv'
      exact ⟨p, hp, by rw [hl, Image.grow_flags, if_neg hv']⟩
  · intro v _
    by_cases hv' : v < m.npages
    · rw [Image.grow_flags, if_pos hv']
      exact hb.perm v hv'
    · rw [Image.grow_flags, if_neg hv']
      exact hperm
  · intro v (hv : max m.npages n ≤ v) h₁ h₂
    rw [hmax] at hv
    rw [hg.frame.leaf r v fun hx => absurd hx.2.2 (Nat.not_lt.2 hv)]
    exact hb.within v (by omega) h₁ h₂
  · intro v hv
    rw [hg.frame.leaf r v fun hx => absurd hx.2.2 (by omega)]
    exact hb.top v hv
  · intro a (ha : a < max m.npages n * pgSize)
    rw [hmax] at ha
    have hva : a / pgSize < n := (Nat.div_lt_iff_lt_mul (by decide)).2 ha
    by_cases hv' : a / pgSize < m.npages
    · have ha' : a < m.npages * pgSize := (Nat.div_lt_iff_lt_mul (by decide)).1 hv'
      obtain ⟨-, h₁, h₂⟩ := hold _ hv'
      rw [h₁, h₂, hb.byte a ha', Image.grow_byte, if_pos ha']
    · have ha' : ¬ a < m.npages * pgSize := fun h₁ => hv' ((Nat.div_lt_iff_lt_mul (by decide)).2 h₁)
      obtain ⟨p, -, -, hp, hz, -⟩ := hnew _ hva hv'
      rw [hp, hz, Image.grow_byte, if_neg ha']
  · intro v (hv : v < max m.npages n)
    rw [hmax] at hv
    by_cases hv' : v < m.npages
    · rw [(hold v hv').2.1, hg.ref r v (by omega) (hb.mapped hv') fun hx => absurd hx.2.1 (Nat.not_le.2 hv')]
      exact hb.own v hv'
    · obtain ⟨p, -, -, hp, -, hone⟩ := hnew v hv hv'
      rw [hp, hone]
  · have h₁ := hb.room
    show max m.npages n + _ + 1 ≤ _
    omega
  · have h₁ := hb.used
    show _ ≤ u.freelist.length + 5 + 3 * max m.npages n
    omega

/-- What `uvmalloc` makes of an image. -/
theorem uvmalloc_building (hb : Building g s r m h t) (hI : Inv userPages g s) (hsz : m.npages = npages oldsz)
    (hx : IsPerm xperm) :
    wp (uvmalloc r oldsz newsz xperm) (fun res u =>
      (newsz < oldsz ∧ res = oldsz ∧ u = t) ∨
      (oldsz ≤ newsz ∧ res = newsz ∧ ∃ f, Building g s r (m.grow (npages newsz) (allocPerm xperm)) f u) ∨
      (oldsz ≤ newsz ∧ res = 0 ∧ s.freelist.length ≤ 5 + 3 * npages newsz ∧
        ∃ f, Planted userPages g s r f u ∧ f.Within r (npages oldsz))) E t := by
  have hlt := hb.npages_lt hI
  have hused := hb.used
  rw [hsz] at hlt hused
  by_cases hle : newsz < oldsz
  · unfold uvmalloc
    rw [if_pos hle, wp_pure]
    exact .inl ⟨hle, rfl, rfl⟩
  · have hle' : oldsz ≤ newsz := Nat.not_lt.1 hle
    have hmax : oldsz ≤ maxVa := by
      have h₁ := npages_le_iff.1 (show npages oldsz ≤ userPages by omega)
      rw [maxVa_eq, Nat.add_mul]
      omega
    have hva : userPages * pgSize ≤ maxVa := by
      rw [maxVa_eq]
      exact Nat.mul_le_mul_right _ (by omega)
    have hz : ∀ v, npages oldsz ≤ v → v < userPages → h.leaf r v = 0 := fun v h₁ h₂ =>
      hb.within v (by rw [hsz]; exact h₁) (by omega) (by omega)
    have hpg := npages_le hle'
    refine wp_post (uvmalloc_spec hb.inv hb.root hle' hmax (by omega) hva hz hx) ?_
    rintro res u (⟨rfl, f, hg⟩ | ⟨rfl, -, hshort, -, f, hs⟩)
    · rw [← hsz] at hg
      exact .inr (.inl ⟨hle', rfl, f, hb.grow hI hg (by rw [hsz]; exact hpg) hx.allocPerm⟩)
    · refine .inr (.inr ⟨hle', rfl, by omega, f, hb.toPlanted.change hs fun _ _ hx => hx.elim, ?_⟩)
      intro v hv h₁ h₂
      rw [hs.frame.leaf r v id]
      exact hb.within v (by rw [hsz]; exact hv) h₁ h₂

/-! ## Looking up and writing a page -/

theorem Building.walk {Q : Option (Nat × Nat) → Ram → Prop} (hb : Building g s r m h t) (hI : Inv userPages g s)
    (hv : v < m.npages) (ha : a / pgSize = v)
    (hQ : ∀ b, h.role b = .table r 0 (v / 512) → t.pte b (v % 512) = h.leaf r v → Q (some (b, v % 512)) t) :
    wp (walk r a false) Q E t := by
  have hlt := hb.npages_lt hI
  have hva : a < maxVa := by
    have h₁ : a < (v + 1) * pgSize := (Nat.div_lt_iff_lt_mul (by decide)).1 (by omega)
    have h₂ : (v + 1) * pgSize ≤ maxVa := by
      rw [maxVa_eq]
      exact Nat.mul_le_mul_right _ (by omega)
    omega
  refine wp_walk hb.inv.tree hb.root hva ?_ ?_ <;> rw [ha]
  · exact hQ
  · intro h₀
    have h₁ := hb.mapped hv
    unfold View.Mapped at h₁
    rw [h₀, not_has_zero] at h₁
    cases h₁

theorem Building.walkaddr {Q : Option Nat → Ram → Prop} (hb : Building g s r m h t) (hI : Inv userPages g s)
    (hv : a / pgSize < m.npages) (hu : (m.flags (a / pgSize)).has pteU = true)
    (hQ : Q (some (h.page r (a / pgSize))) t) : wp (walkaddr r a) Q E t := by
  have hlt := hb.npages_lt hI
  have hva : ¬ maxVa ≤ a := by
    have h₁ : a < userPages * pgSize := (Nat.div_lt_iff_lt_mul (by decide)).1 (by omega)
    rw [maxVa_eq, Nat.add_mul]
    omega
  have hm : (h.leaf r (a / pgSize)).has pteV = true := hb.mapped hv
  have hu' : (h.leaf r (a / pgSize)).has pteU = true := by
    rw [has_pteU, getLsbD_leaf hb.toShows hv (by omega) (by omega), ← has_pteU]
    exact hu
  unfold Vm.walkaddr
  rw [if_neg hva, wp_bind]
  refine hb.walk hI hv rfl fun b _ hpte => ?_
  simp only [readPte, wp_bind, wp_get, wp_pure, hpte, hm, hu', and_self, if_true]
  exact hQ

theorem Building.write (hb : Building g s r m h t) (hI : Inv userPages g s) (hv : v < m.npages) (off : Nat)
    (b : List (BitVec 8)) (hoff : off + b.length ≤ pgSize) :
    Building g s r (m.write (v * pgSize + off) (fun i => b.getD i 0) b.length) h (t.write (h.page r v) off b) := by
  have hlt := hb.npages_lt hI
  have hm := hb.mapped hv
  have hown := hb.own v hv
  have hu := hb.inv.count.user r v (by omega) hm
  have hc : Change userPages {r} (one r v) h t h (t.write (h.page r v) off b) :=
    ⟨hb.inv.write (.inr hu) off b, .write hb.inv hown (by omega) hm off b, rfl, rfl, rfl, .write {r} hu off b⟩
  refine ⟨hb.toPlanted.change hc fun _ _ hx => hx.1, ⟨hb.leaf, hb.perm, hb.within, hb.top, ?_⟩, hb.own, hb.room, hb.used⟩
  intro a (ha : a < m.npages * pgSize)
  have hdm := Nat.div_add_mod a pgSize
  have hmod := Nat.mod_lt a (show 0 < pgSize by decide)
  by_cases hav : a / pgSize = v
  · rw [hav, write_mem_self]
    have hbyte := hb.byte a ha
    rw [hav] at hbyte hdm
    rw [Nat.mul_comm] at hdm
    rw [Image.write_byte]
    by_cases hin : off ≤ a % pgSize ∧ a % pgSize < off + b.length
    · rw [blit_apply hin, blit_apply (by omega)]
      congr 1
      omega
    · rw [blit_apply_of_lt (by omega), blit_apply_of_lt (by omega), hbyte]
  · have hne : h.page r (a / pgSize) ≠ h.page r v := fun he => by
      have hva : a / pgSize < m.npages := (Nat.div_lt_iff_lt_mul (by decide)).2 ha
      exact hav (hb.inv.unique hown (by omega) hm (by omega) (hb.mapped hva) he).2
    have hout : a < v * pgSize + off ∨ v * pgSize + off + b.length ≤ a := by
      have h₁ : v * pgSize = pgSize * v := Nat.mul_comm _ _
      unfold pgSize at *
      omega
    rw [write_mem_of_ne hne, hb.byte a ha, Image.write_byte, blit_apply_of_lt hout]

/-! ## `uvmclear` and `copyout` -/

theorem clear_pteU (p : Nat) (x : Pte) :
    (pa2pte p ||| x ||| pteV) &&& ~~~pteU = pa2pte p ||| (x &&& ~~~pteU) ||| pteV := by
  refine BitVec.eq_of_getLsbD_eq fun i hi => ?_
  have hpa : i = 4 → (pa2pte p).getLsbD i = false := fun h₄ => by
    rw [getLsbD_pa2pte, h₄]
    rfl
  simp only [BitVec.getLsbD_and, BitVec.getLsbD_or, BitVec.getLsbD_not, getLsbD_pteU, getLsbD_pteV, hi, decide_true,
    Bool.true_and]
  by_cases h₄ : i = 4
  · rw [hpa h₄]
    simp [h₄]
  · simp [h₄]

theorem has_clear_pteU {i : Nat} (hi : i < 64) (h₄ : i ≠ 4) : (x &&& ~~~pteU).getLsbD i = x.getLsbD i := by
  rw [BitVec.getLsbD_and, BitVec.getLsbD_not, getLsbD_pteU]
  simp [hi, h₄]

theorem uvmclear_building {Q : Unit → Ram → Prop} (hb : Building g s r m h t) (hI : Inv userPages g s)
    (hv : v < m.npages) (hQ : ∀ f u, Building g s r (m.clear v pteU) f u → Q () u) :
    wp (uvmclear r (v * pgSize)) Q E t := by
  have hlt := hb.npages_lt hI
  have hm := hb.mapped hv
  obtain ⟨p, hp, hl⟩ := hb.leaf v hv
  have hpage : h.page r v = p := by
    unfold View.page
    rw [hl, pte2pa_make_perm hp (hb.perm v hv)]
  unfold uvmclear
  rw [wp_bind]
  refine hb.walk hI hv (mul_pgSize_div v) fun b hb' hpte => ?_
  simp only [readPte, writePte, wp_bind, wp_get, wp_pure, wp_modify, hpte]
  have hV : (h.leaf r v &&& ~~~pteU).has pteV = true := by
    rw [has_pteV, has_clear_pteU (by omega) (by omega), ← has_pteV]
    exact hm
  have hW : (h.leaf r v &&& ~~~pteU).has pteW = true → (h.leaf r v).has pteW = true := fun h₁ => by
    rw [has_pteW, has_clear_pteU (by omega) (by omega), ← has_pteW] at h₁
    exact h₁
  have hpa : pte2pa (h.leaf r v &&& ~~~pteU) = h.page r v :=
    pte2pa_congr fun i h₁ h₂ => has_clear_pteU (by omega) (by omega)
  have hc : Change userPages {r} (one r v) h t (h.setLeaf r v (h.leaf r v &&& ~~~pteU))
      (t.setPte b (v % 512) (h.leaf r v &&& ~~~pteU)) :=
    ⟨hb.inv.setFlags hb' (by omega) hm hV hpa hW, .setLeaf hb.inv hb' _ _ _, rfl, rfl, rfl,
      (Apart.setLeaf hb' _ _ _).mono (Set.empty_subset _)⟩
  -- no page changes but for the flags of this one
  have hpg : ∀ v', (h.setLeaf r v (h.leaf r v &&& ~~~pteU)).page r v' = h.page r v' := fun v' => by
    by_cases hv' : v' = v
    · subst hv'
      unfold View.page
      rw [setLeaf_leaf_self]
      exact hpa
    · unfold View.page
      rw [setLeaf_leaf_of_ne (.inr hv')]
  refine hQ _ _ ⟨hb.toPlanted.change hc fun _ _ hx => hx.1, ⟨?_, ?_, ?_, ?_, ?_⟩, ?_, hb.room, hb.used⟩
  · intro v' hv'
    by_cases he : v' = v
    · subst he
      refine ⟨p, hp, ?_⟩
      rw [setLeaf_leaf_self, hl, clear_pteU, show (m.clear v' pteU).flags v' = _ from update_self ..]
    · obtain ⟨q, hq, hlq⟩ := hb.leaf v' hv'
      refine ⟨q, hq, ?_⟩
      rw [setLeaf_leaf_of_ne (.inr he), hlq, show (m.clear v pteU).flags v' = _ from update_of_ne he ..]
  · intro v' hv'
    by_cases he : v' = v
    · subst he
      rw [show (m.clear v' pteU).flags v' = _ from update_self ..]
      exact (hb.perm v' hv').and _
    · rw [show (m.clear v pteU).flags v' = _ from update_of_ne he ..]
      exact hb.perm v' hv'
  · intro v' hv' h₁ h₂
    have hne : v' ≠ v := fun he => absurd hv (Nat.not_lt.2 (he ▸ hv'))
    rw [setLeaf_leaf_of_ne (.inr hne)]
    exact hb.within v' hv' h₁ h₂
  · intro v' hv'
    rw [setLeaf_leaf_of_ne (.inr (by omega))]
    exact hb.top v' hv'
  · intro a' ha'
    have hva : a' / pgSize < m.npages := (Nat.div_lt_iff_lt_mul (by decide)).2 ha'
    have hne : h.page r (a' / pgSize) ≠ b :=
      ne_of_role (hb.inv.count.user r _ (by omega) (hb.mapped hva)) hb' (by simp)
    rw [hpg, setPte_mem, update_of_ne hne]
    exact hb.byte a' ha'
  · intro v' hv'
    rw [hpg]
    exact hb.own v' hv'

/-- A page the kernel may copy to. -/
structure Image.Writable (m : Image) (v : Nat) : Prop where
  lt : v < m.npages
  user : (m.flags v).has pteU = true
  write : (m.flags v).has pteW = true
  cow : (m.flags v).has pteCow = false

theorem copyoutPage_building {Q : Option Nat → Ram → Prop} {p : Proc} (hb : Building g s r m h t) (hI : Inv userPages g s)
    (hw : m.Writable v) (hQ : Q (some (h.page r v)) t) : wp (copyoutPage p r (v * pgSize)) Q E t := by
  have hdiv := mul_pgSize_div v
  have hflag : ∀ {i : Nat}, i < 10 → i ≠ 0 → (h.leaf r v).getLsbD i = (m.flags v).getLsbD i := fun hi h₀ =>
    getLsbD_leaf hb.toShows hw.lt hi h₀
  have hcow : (h.leaf r v).has pteCow = false := by
    rw [has_pteCow, hflag (by omega) (by omega), ← has_pteCow]
    exact hw.cow
  have hwr : (h.leaf r v).has pteW = true := by
    rw [has_pteW, hflag (by omega) (by omega), ← has_pteW]
    exact hw.write
  unfold copyoutPage
  simp only [wp_bind]
  refine hb.walkaddr hI (by rw [hdiv]; exact hw.lt) (by rw [hdiv]; exact hw.user) ?_
  simp only [wp_bind]
  refine hb.walk hI hw.lt hdiv fun b _ hpte => ?_
  simp only [readPte, wp_bind, wp_get, wp_pure, hpte, hcow, Bool.false_eq_true, if_false]
  refine hb.walk hI hw.lt hdiv fun b' _ hpte' => ?_
  simp only [wp_bind, wp_get, wp_pure, hpte', hwr, if_true, hdiv]
  exact hQ

theorem blit_blit (b src : Bytes) (a k n : Nat) :
    blit (blit b a src 0 k) (a + k) (fun i => src (k + i)) 0 n = blit b a src 0 (k + n) := by
  funext x
  unfold blit
  by_cases h₁ : a + k ≤ x ∧ x < a + k + n
  · rw [if_pos h₁, if_pos (by omega)]
    show src _ = src _
    congr 1
    omega
  · rw [if_neg h₁]
    by_cases h₂ : a ≤ x ∧ x < a + k
    · rw [if_pos h₂, if_pos (by omega)]
    · rw [if_neg h₂, if_neg (by omega)]

theorem Image.write_write (m : Image) (a k n : Nat) (src : Bytes) :
    (m.write a src k).write (a + k) (fun i => src (k + i)) n = m.write a src (k + n) := by
  unfold Image.write
  rw [blit_blit]

theorem Image.write_zero (m : Image) (a : Nat) (src : Bytes) : m.write a src 0 = m := by
  have h₁ : blit m.byte a src 0 0 = m.byte := funext fun x => blit_apply_of_lt (by omega)
  unfold Image.write
  rw [h₁]

theorem Image.write_congr {src src' : Bytes} (h : ∀ i, i < n → src i = src' i) (m : Image) (a : Nat) :
    m.write a src n = m.write a src' n := by
  have h₁ : blit m.byte a src 0 n = blit m.byte a src' 0 n := by
    funext x
    unfold blit
    by_cases hx : a ≤ x ∧ x < a + n
    · rw [if_pos hx, if_pos hx]
      exact h _ (by omega)
    · rw [if_neg hx, if_neg hx]
  unfold Image.write
  rw [h₁]

theorem Image.write_append (m : Image) {k b : Nat} {src : List (BitVec 8)} (hk : k ≤ src.length)
    (hb : k < src.length → b = a + k) :
    (m.write a (fun i => (src.take k).getD i 0) k).write b (fun i => (src.drop k).getD i 0) (src.drop k).length =
      m.write a (fun i => src.getD i 0) src.length := by
  have h₁ : m.write a (fun i => (src.take k).getD i 0) k = m.write a (fun i => src.getD i 0) k := by
    refine Image.write_congr (fun i hi => ?_) m a
    rw [List.getD_eq_getElem?_getD, List.getD_eq_getElem?_getD, List.getElem?_take_of_lt hi]
  have h₂ : (fun i => (src.drop k).getD i 0) = fun i => src.getD (k + i) 0 := by
    funext i
    rw [List.getD_eq_getElem?_getD, List.getD_eq_getElem?_getD, List.getElem?_drop]
  rw [h₁, h₂, List.length_drop]
  rcases Nat.lt_or_ge k src.length with hlt | hge
  · rw [hb hlt, Image.write_write m a k _ fun i => src.getD i 0, Nat.add_sub_cancel' hk]
  · have he : k = src.length := Nat.le_antisymm hk hge
    rw [he, Nat.sub_self, Image.write_zero]

theorem copyoutLoop_building {p : Proc} {src : List (BitVec 8)} {fuel : Nat} (hb : Building g s r m h t)
    (hI : Inv userPages g s) (hw : ∀ v, a / pgSize ≤ v → v * pgSize < a + src.length → m.Writable v)
    (hfuel : src.length ≤ fuel) :
    wp (copyoutLoop p r fuel a src) (fun res u => res = 0 ∧
      ∃ f, Building g s r (m.write a (fun i => src.getD i 0) src.length) f u) E t := by
  induction fuel generalizing a src m t h with
  | zero =>
      have h₀ : src.length = 0 := by omega
      simp only [copyoutLoop, wp_pure]
      refine ⟨trivial, h, ?_⟩
      rw [h₀, Image.write_zero]
      exact hb
  | succ fuel ih =>
      unfold copyoutLoop
      by_cases hnil : src = []
      · subst hnil
        rw [if_pos rfl, wp_pure]
        refine ⟨rfl, h, ?_⟩
        rw [List.length_nil, Image.write_zero]
        exact hb
      · have hpos : 0 < src.length := List.length_pos_iff.2 hnil
        have hdm := Nat.div_add_mod a pgSize
        have hmod := Nat.mod_lt a (show 0 < pgSize by decide)
        rw [Nat.mul_comm] at hdm
        have hpage := hw (a / pgSize) (Nat.le_refl _) (by omega)
        have hlt := hb.npages_lt hI
        have hva : ¬ maxVa ≤ pgRoundDown a := by
          have h₁ : pgRoundDown a ≤ userPages * pgSize := Nat.mul_le_mul_right _ (by have := hpage.lt; omega)
          rw [maxVa_eq, Nat.add_mul]
          omega
        have hoff : a - pgRoundDown a = a % pgSize := by
          unfold pgRoundDown
          omega
        rw [if_neg hnil]
        simp only [if_neg hva, wp_bind]
        refine copyoutPage_building hb hI hpage ?_
        simp only [wp_bind, wp_modify, hoff]
        have hlen : (src.take (min (pgSize - a % pgSize) src.length)).length = min (pgSize - a % pgSize) src.length := by
          rw [List.length_take]
          omega
        have hb' := hb.write hI hpage.lt (a % pgSize) (src.take (min (pgSize - a % pgSize) src.length)) (by omega)
        rw [hlen, hdm] at hb'
        have hnext : pgRoundDown a + pgSize = (a / pgSize + 1) * pgSize := by
          rw [Nat.add_mul, Nat.one_mul]
          rfl
        rw [hnext]
        refine wp_post (ih hb' (fun v h₁ h₂ => ?_) ?_) ?_
        · rw [mul_pgSize_div] at h₁
          rw [List.length_drop] at h₂
          have h₃ : (a / pgSize + 1) * pgSize ≤ v * pgSize := Nat.mul_le_mul_right _ h₁
          rw [Nat.add_mul, Nat.one_mul] at h₂ h₃
          obtain ⟨h₄, h₅, h₆, h₇⟩ := hw v (by omega) (by omega)
          exact ⟨h₄, h₅, h₆, h₇⟩
        · rw [List.length_drop]
          omega
        · rintro res u ⟨rfl, f, hf⟩
          refine ⟨rfl, f, ?_⟩
          rw [Image.write_append m (Nat.min_le_right _ _) fun h₁ => ?_] at hf
          · exact hf
          · rw [Nat.add_mul, Nat.one_mul]
            omega

theorem copyout_building {p : Proc} {src : List (BitVec 8)} (hb : Building g s r m h t) (hI : Inv userPages g s)
    (hw : ∀ v, a / pgSize ≤ v → v * pgSize < a + src.length → m.Writable v) :
    wp (copyout p r a src) (fun res u => res = 0 ∧
      ∃ f, Building g s r (m.write a (fun i => src.getD i 0) src.length) f u) E t :=
  copyoutLoop_building hb hI hw (Nat.le_refl _)

end Xv6.Vm
