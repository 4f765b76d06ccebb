import Xv6.Fs.Lemmas.Dir
import Xv6.Fs.Path

/-!
# The references to inodes that file-system code takes and drops

On any image, sound or not: what each function does to the counts of references in the inode table.
-/

namespace Xv6.Fs

open Lib Function

/-- The counts of references in the inode table. -/
def Fs.ref (s : Fs) (e : Nat) : Nat := (s.inode e).ref

/-- `c` with one more reference for each occurrence of an entry in `H`. -/
def hold (c : Nat → Nat) (H : List Nat) (e : Nat) : Nat := c e + H.count e

variable {α : Type} {c : Nat → Nat} {H : List Nat} {s : Fs} {e e' dp cwd : Nat} {name : Name} {path : List Byte}

theorem hold_nil : hold c [] = c := rfl

theorem take_hold : Function.update (hold c H) e (hold c H e + 1) = hold c (e :: H) := by
  funext x
  obtain rfl | hx := eq_or_ne x e
  · rw [update_self, hold, hold, List.count_cons_self, Nat.add_assoc]
  · rw [update_of_ne hx, hold, hold, List.count_cons_of_ne hx.symm]

theorem drop_hold (he : e ∈ H) : Function.update (hold c H) e (hold c H e - 1) = hold c (H.erase e) := by
  have hpos := List.count_pos_iff.2 he
  funext x
  obtain rfl | hx := eq_or_ne x e
  · rw [update_self, hold, hold, List.count_erase_self]
    omega
  · rw [update_of_ne hx, hold, hold, List.count_erase_of_ne hx]

/-! ## Code that leaves the counts alone -/

theorem ref_setInode {x : Inode} : (s.setInode e x).ref = Function.update s.ref e x.ref := by
  funext e'
  obtain rfl | he := eq_or_ne e' e
  · rw [update_self]
    exact congrArg Inode.ref (update_self ..)
  · rw [update_of_ne he]
    exact congrArg Inode.ref (update_of_ne he ..)

theorem ref_setInode_same {x : Inode} (h : x.ref = (s.inode e).ref) : (s.setInode e x).ref = s.ref := by
  rw [ref_setInode, h]
  exact update_eq_self ..

theorem logWrite_still {b : Nat} {data : Block} : Still Fs.ref (logWrite b data) :=
  Still.of_wp fun _ => wp_ite (fun _ => trivial) fun _ => wp_ite (fun _ => trivial) fun _ => rfl

theorem bzero_still {b : Nat} : Still Fs.ref (bzero b) := Still.of_get fun _ => logWrite_still

theorem ballocFrom_still {k b : Nat} : Still Fs.ref (ballocFrom k b) := by
  induction k generalizing b with
  | zero => exact Still.of_pure
  | succ k ih =>
      refine Still.of_get fun s => Still.of_ite ?_ Still.of_pure
      cases freeBit (s.blk (s.sb.bblock b)) (min bpb (s.sb.size - b)) with
      | none => exact ih
      | some bi => exact Still.bind logWrite_still fun _ => Still.bind bzero_still fun _ => Still.of_pure

theorem balloc_still : Still Fs.ref balloc := Still.of_get fun _ => ballocFrom_still

theorem bfree_still {b : Nat} : Still Fs.ref (bfree b) :=
  Still.of_get fun _ => Still.of_ite Still.of_throw logWrite_still

theorem iupdate_still : Still Fs.ref (iupdate e) := Still.of_get fun _ => logWrite_still

theorem setD_still {g : Fs → Dinode} : Still Fs.ref (modify fun s => s.setD e (g s) : K Unit) :=
  Still.of_modify fun _ => ref_setInode_same rfl

theorem update_still {g : Dinode → Dinode} : Still Fs.ref (update e g) := Still.bind setD_still fun _ => iupdate_still

theorem acquiresleep_still : Still Fs.ref (acquiresleep e) :=
  Still.of_wp fun _ => wp_ite (fun _ => trivial) fun _ => ref_setInode_same rfl

theorem releasesleep_still : Still Fs.ref (releasesleep e) := Still.of_modify fun _ => ref_setInode_same rfl

theorem ilock_still : Still Fs.ref (ilock e) := by
  refine Still.of_get fun s => Still.of_ite Still.of_throw (Still.bind acquiresleep_still fun _ => Still.of_wp fun t => ?_)
  refine wp_ite (fun _ => ?_) fun _ => rfl
  refine wp_ite (fun _ => trivial) fun _ => ?_
  exact ref_setInode_same rfl

theorem iunlock_still : Still Fs.ref (iunlock e) := Still.of_get fun _ => Still.of_ite Still.of_throw releasesleep_still

theorem bmapAddr_still {k : Nat} : Still Fs.ref (bmapAddr e k) :=
  Still.of_get fun _ => Still.of_ite (Still.bind balloc_still fun _ => Still.of_ite Still.of_pure
    (Still.bind setD_still fun _ => Still.of_pure)) Still.of_pure

theorem bmap_still {bn : Nat} : Still Fs.ref (bmap e bn) := by
  refine Still.of_ite bmapAddr_still (Still.of_ite (Still.bind bmapAddr_still fun tbl => ?_) Still.of_throw)
  refine Still.of_ite Still.of_pure (Still.of_get fun s => Still.of_ite (Still.bind balloc_still fun addr => ?_) Still.of_pure)
  exact Still.of_ite Still.of_pure (Still.of_get fun _ => Still.bind logWrite_still fun _ => Still.of_pure)

theorem itrunc_still : Still Fs.ref (itrunc e) := by
  refine Still.bind (Still.of_forN (fun i => Still.of_get fun s => Still.of_ite Still.of_pure ?_) _ _) fun _ => ?_
  · exact Still.bind bfree_still fun _ => setD_still
  · have hend : Still Fs.ref (do
        modify fun s => s.setD e { (s.inode e).d with size := 0 }
        iupdate e) := Still.bind setD_still fun _ => iupdate_still
    refine Still.of_get fun s => Still.of_ite hend ?_
    refine Still.bind (Still.of_forN (fun j => Still.of_ite Still.of_pure bfree_still) _ _) fun _ => ?_
    exact Still.bind bfree_still fun _ => Still.bind setD_still fun _ => hend

theorem readiLoop_still {n k tot off : Nat} {copyout : Nat → Nat → Bool} {buf : Bytes} :
    Still Fs.ref (readiLoop e n copyout k tot off buf) := by
  induction k generalizing tot off buf with
  | zero => exact Still.of_pure
  | succ k ih =>
      refine Still.of_ite (Still.bind bmap_still fun addr => Still.of_ite Still.of_pure ?_) Still.of_pure
      exact Still.of_get fun s => Still.of_ite ih Still.of_pure

theorem readi_still {copyout : Nat → Nat → Bool} {off n : Nat} : Still Fs.ref (readi e copyout off n) :=
  Still.of_get fun _ => Still.of_ite Still.of_pure readiLoop_still

theorem readiKernel_still {off n : Nat} : Still Fs.ref (readiKernel e off n) :=
  Still.bind readi_still fun _ => Still.of_pure

theorem writeiLoop_still {n k tot off : Nat} {src : Nat → Option Byte} : Still Fs.ref (writeiLoop e n src k tot off) := by
  induction k generalizing tot off with
  | zero => exact Still.of_pure
  | succ k ih =>
      refine Still.of_ite (Still.bind bmap_still fun addr => Still.of_ite Still.of_pure ?_) Still.of_pure
      refine Still.of_get fun s => Still.of_ite (Still.bind (Still.of_modify fun _ => rfl) fun _ => Still.of_pure) ?_
      exact Still.bind logWrite_still fun _ => ih

theorem writei_still {src : Nat → Option Byte} {off n : Nat} : Still Fs.ref (writei e src off n) := by
  refine Still.of_get fun s => Still.of_ite Still.of_pure (Still.of_ite Still.of_pure (Still.bind writeiLoop_still ?_))
  rintro ⟨tot, off⟩
  refine Still.bind (Still.of_modify fun s => ?_) fun _ => Still.bind iupdate_still fun _ => Still.of_pure
  split
  · exact ref_setInode_same rfl
  · rfl

theorem beginOp_still : Still Fs.ref beginOp := Still.of_modify fun _ => rfl

theorem endOp_still : Still Fs.ref endOp := Still.of_modify fun _ => rfl

/-! ## The inode table -/

theorem iget_refs {dev inum : Nat} : Track Fs.ref c (iget dev inum) fun e c' => e < ninode ∧ c' = hold c [e] := by
  intro s hs
  subst hs
  simp only [iget, wp_bind, wp_get]
  cases hf : s.find dev inum with
  | some e =>
      refine ⟨List.mem_range.1 (List.mem_of_find?_eq_some hf), ?_⟩
      rw [ref_setInode]
      exact take_hold (H := [])
  | none =>
      cases he : s.empty with
      | none => trivial
      | some e =>
          refine ⟨List.mem_range.1 (List.mem_of_find?_eq_some he), ?_⟩
          have hz : (s.inode e).ref = 0 := by simpa using List.find?_some he
          rw [ref_setInode]
          have htake := take_hold (c := s.ref) (H := []) (e := e)
          rw [hold_nil] at htake
          rw [← htake, Fs.ref, hz]

theorem idup_refs : Track Fs.ref c (idup e) fun r c' => r = e ∧ c' = hold c [e] := by
  rintro s rfl
  refine ⟨rfl, ?_⟩
  rw [ref_setInode]
  exact take_hold (H := [])

theorem iput_refs : Track Fs.ref c (iput e) fun _ c' => c' = Function.update c e (c e - 1) := by
  have hdrop : Track Fs.ref c (modify fun s => s.setInode e { s.inode e with ref := (s.inode e).ref - 1 } : K Unit)
      fun _ c' => c' = Function.update c e (c e - 1) := Track.of_modify fun s hs => by
    rw [ref_setInode, hs]
    exact congrArg (Function.update c e) (by rw [← hs]; rfl)
  refine Track.of_get fun s => Track.of_ite (fun _ => ?_) fun _ => hdrop
  refine Track.skip acquiresleep_still fun _ => Track.skip itrunc_still fun _ => Track.skip setD_still fun _ => ?_
  refine Track.skip iupdate_still fun _ => Track.skip (Still.of_modify fun _ => ref_setInode_same rfl) fun _ => ?_
  exact Track.skip releasesleep_still fun _ => hdrop

theorem iput_hold (he : e ∈ H) : Track Fs.ref (hold c H) (iput e) fun _ c' => c' = hold c (H.erase e) :=
  iput_refs.post fun _ _ h => h.trans (drop_hold he)

theorem iunlockput_hold (he : e ∈ H) : Track Fs.ref (hold c H) (iunlockput e) fun _ c' => c' = hold c (H.erase e) :=
  Track.skip iunlock_still fun _ => iput_hold he

/-- What is held after a function that returns an inode, or none. -/
def Got (c : Nat → Nat) (r : Option Nat) (c' : Nat → Nat) : Prop :=
  match r with
  | none => c' = c
  | some e => e < ninode ∧ c' = hold c [e]

theorem hold_hold : hold (hold c H) [e] = hold c (e :: H) := by
  funext x
  simp only [hold, List.count_cons, List.count_nil]
  omega

theorem erase_second : [e, e'].erase e' = [e] := by
  by_cases heq : e = e'
  · rw [heq, List.erase_cons_head]
  · rw [List.erase_cons_tail (by simpa using heq), List.erase_cons_head]

theorem iunlockput_second : Track Fs.ref (hold c [e, e']) (iunlockput e') fun _ c' => c' = hold c [e] :=
  (iunlockput_hold (List.mem_cons_of_mem _ (List.mem_singleton.2 rfl))).post fun _ _ h => by rwa [erase_second] at h

theorem iput_one : Track Fs.ref (hold c [e]) (iput e) fun _ c' => c' = c :=
  (iput_hold (List.mem_singleton.2 rfl)).post fun _ _ h => by rwa [List.erase_cons_head] at h

theorem iunlockput_one : Track Fs.ref (hold c [e]) (iunlockput e) fun _ c' => c' = c :=
  Track.skip iunlock_still fun _ => iput_one

theorem iallocFrom_refs {type k inum : Nat} : Track Fs.ref c (iallocFrom type k inum) (Got c) := by
  induction k generalizing inum with
  | zero => exact Track.of_pure rfl
  | succ k ih =>
      refine Track.of_get fun s => Track.of_ite (fun _ => Track.skip logWrite_still fun _ => ?_) fun _ => ih
      exact Track.bind iget_refs fun e c' h => Track.of_pure h

theorem ialloc_refs {type : Nat} : Track Fs.ref c (ialloc type) (Got c) := Track.of_get fun _ => iallocFrom_refs

theorem ireclaimOne_still {inum : Nat} : Still Fs.ref (ireclaimOne inum) := by
  refine Still.of_get fun s => Still.of_ite (fun c => Track.bind iget_refs ?_) Still.of_pure
  rintro e _ ⟨_, rfl⟩
  refine Track.skip beginOp_still fun _ => Track.skip ilock_still fun _ => Track.skip iunlock_still fun _ => ?_
  refine Track.bind iput_one ?_
  rintro _ _ rfl
  exact endOp_still _

/-! ## Directories and paths -/

theorem dirlookupFrom_refs {k off : Nat} : Track Fs.ref c (dirlookupFrom dp name k off) fun r => Got c (r.map Prod.fst) := by
  induction k generalizing off with
  | zero => exact Track.of_pure rfl
  | succ k ih =>
      refine Track.skip readiKernel_still ?_
      rintro ⟨r, de⟩
      refine Track.of_ite (fun _ => Track.of_throw) fun _ => Track.of_ite (fun _ => ?_) fun _ => ih
      exact Track.bind iget_refs fun e c' h => Track.of_pure h

theorem dirlookup_refs : Track Fs.ref c (dirlookup dp name) fun r => Got c (r.map Prod.fst) :=
  Track.of_get fun _ => Track.of_ite (fun _ => Track.of_throw) fun _ => dirlookupFrom_refs

theorem dirlinkFrom_still {k off : Nat} : Still Fs.ref (dirlinkFrom dp k off) := by
  induction k generalizing off with
  | zero => exact Still.of_pure
  | succ k ih =>
      refine Still.bind readiKernel_still ?_
      rintro ⟨r, de⟩
      exact Still.of_ite Still.of_throw (Still.of_ite Still.of_pure ih)

theorem dirlink_still {inum : Nat} : Still Fs.ref (dirlink dp name inum) := by
  intro c
  refine Track.bind dirlookup_refs ?_
  rintro (_ | ⟨e, off⟩) c' h
  · obtain rfl : c' = c := h
    refine Track.of_get fun s => Track.skip dirlinkFrom_still fun off => ?_
    exact Track.skip writei_still fun r => Track.of_pure rfl
  · obtain ⟨_, rfl⟩ := h
    refine Track.bind iput_one ?_
    rintro _ _ rfl
    exact Track.of_pure rfl

theorem isdiremptyFrom_still {k off : Nat} : Still Fs.ref (isdiremptyFrom dp k off) := by
  induction k generalizing off with
  | zero => exact Still.of_pure
  | succ k ih =>
      refine Still.bind readiKernel_still ?_
      rintro ⟨r, de⟩
      exact Still.of_ite Still.of_throw (Still.of_ite Still.of_pure ih)

theorem isdirempty_still : Still Fs.ref (isdirempty dp) := Still.of_get fun _ => isdiremptyFrom_still

theorem namexFrom_refs {parent : Bool} {k : Nat} (he : e < ninode) (hk : path.length < k) :
    Track Fs.ref (hold c [e]) (namexFrom parent k e path) fun r => Got c (r.map Prod.fst) := by
  induction k generalizing e path with
  | zero => exact absurd hk (Nat.not_lt_zero _)
  | succ k ih =>
      have hnone : ∀ c' : Nat → Nat, c' = c → Got c (Option.map Prod.fst (none : Option (Nat × Name))) c' := fun _ h => h
      rw [namexFrom]
      cases hskip : skipelem path with
      | none =>
          refine Track.of_ite (fun _ => ?_) fun _ => Track.of_pure ⟨he, rfl⟩
          exact Track.bind iput_one fun _ _ h => Track.of_pure (hnone _ h)
      | some p =>
          obtain ⟨name, rest⟩ := p
          have hlen := skipelem_length hskip
          refine Track.skip ilock_still fun _ => Track.of_get fun s => Track.of_ite (fun _ => ?_) fun _ =>
            Track.of_ite (fun _ => ?_) fun _ => ?_
          · exact Track.bind iunlockput_one fun _ _ h => Track.of_pure (hnone _ h)
          · exact Track.skip iunlock_still fun _ => Track.of_pure ⟨he, rfl⟩
          · refine Track.bind dirlookup_refs ?_
            rintro (_ | ⟨e', off⟩) c' h
            · obtain rfl : c' = hold c [e] := h
              exact Track.bind iunlockput_one fun _ _ h => Track.of_pure (hnone _ h)
            · obtain ⟨he', rfl⟩ := h
              rw [hold_hold]
              refine Track.bind iunlockput_second ?_
              rintro _ _ rfl
              exact ih he' (by omega)

theorem namex_refs {parent : Bool} (hcwd : cwd < ninode) :
    Track Fs.ref c (namex cwd path parent) fun r => Got c (r.map Prod.fst) := by
  have hstart : Track Fs.ref c (if path.head? = some slash then iget rootDev rootIno else idup cwd)
      fun e c' => e < ninode ∧ c' = hold c [e] :=
    Track.of_ite (fun _ => iget_refs) fun _ => idup_refs.post fun _ _ h => ⟨h.1 ▸ hcwd, by rw [h.2, h.1]⟩
  refine Track.bind hstart ?_
  rintro e _ ⟨he, rfl⟩
  exact namexFrom_refs he (Nat.lt_succ_self _)

theorem namei_refs (hcwd : cwd < ninode) : Track Fs.ref c (namei cwd path) (Got c) :=
  Track.bind (namex_refs hcwd) fun _ _ h => Track.of_pure h

/-! ## The calls -/

theorem createFail_refs : Track Fs.ref (hold c [e, dp]) (createFail dp e) (Got c) := by
  refine Track.skip update_still fun _ => Track.bind (iunlockput_hold (List.mem_cons_self ..)) ?_
  rintro _ _ rfl
  rw [List.erase_cons_head]
  exact Track.bind iunlockput_one fun _ _ h => Track.of_pure h

theorem createLinks_still {type : Nat} : Still Fs.ref (createLinks dp e name type) := by
  refine Still.of_get fun s => ?_
  have hlast : ∀ dots : Bool, Still Fs.ref (if dots = true then dirlink dp name (s.inode e).inum else pure false) :=
    fun _ => Still.of_ite dirlink_still Still.of_pure
  refine Still.bind (Still.of_ite (Still.bind dirlink_still fun _ => Still.of_ite ?_ Still.of_pure) Still.of_pure) hlast
  exact Still.of_get fun _ => dirlink_still

theorem createNew_refs {type major minor : Nat} : Track Fs.ref (hold c [dp]) (createNew dp name type major minor) (Got c) := by
  refine Track.bind ialloc_refs ?_
  rintro (_ | e) c' h
  · obtain rfl : c' = hold c [dp] := h
    exact Track.bind iunlockput_one fun _ _ h => Track.of_pure h
  · obtain ⟨he, rfl⟩ := h
    rw [hold_hold]
    have hend : Track Fs.ref (hold c [e, dp]) (do
        iunlockput dp
        pure (some e)) (Got c) := Track.bind iunlockput_second fun _ _ h => Track.of_pure ⟨he, h⟩
    refine Track.skip ilock_still fun _ => Track.skip update_still fun _ => Track.skip createLinks_still fun _ => ?_
    refine Track.of_ite (fun _ => Track.of_ite (fun _ => ?_) fun _ => hend) fun _ => createFail_refs
    exact Track.skip update_still fun _ => hend

theorem create_refs {type major minor : Nat} (hcwd : cwd < ninode) :
    Track Fs.ref c (create cwd path type major minor) (Got c) := by
  refine Track.bind (namex_refs hcwd) ?_
  rintro (_ | ⟨dp, name⟩) c' h
  · exact Track.of_pure h
  · obtain ⟨_, rfl⟩ := h
    refine Track.skip ilock_still fun _ => Track.bind dirlookup_refs ?_
    rintro (_ | ⟨e, off⟩) c' h
    · obtain rfl : c' = hold c [dp] := h
      exact createNew_refs
    · obtain ⟨he, rfl⟩ := h
      rw [hold_hold]
      refine Track.bind iunlockput_second ?_
      rintro _ _ rfl
      refine Track.skip ilock_still fun _ => Track.of_get fun s => Track.of_ite (fun _ => Track.of_pure ⟨he, rfl⟩) fun _ => ?_
      exact Track.bind iunlockput_one fun _ _ h => Track.of_pure h

theorem make_still {type major minor : Nat} (hcwd : cwd < ninode) : Still Fs.ref (make cwd path type major minor) := by
  intro c
  refine Track.bind (create_refs hcwd) ?_
  rintro (_ | e) c' h
  · exact Track.of_pure h
  · obtain ⟨_, rfl⟩ := h
    exact Track.bind iunlockput_one fun _ _ h => Track.of_pure h

theorem linkBad_refs : Track Fs.ref (hold c [e]) (linkBad e) fun _ c' => c' = c :=
  Track.skip ilock_still fun _ => Track.skip update_still fun _ => Track.bind iunlockput_one fun _ _ h => Track.of_pure h

theorem link_still {old new : List Byte} (hcwd : cwd < ninode) : Still Fs.ref (link cwd old new) := by
  intro c
  refine Track.bind (namei_refs hcwd) ?_
  rintro (_ | e) c' h
  · exact Track.of_pure h
  · obtain ⟨_, rfl⟩ := h
    refine Track.skip ilock_still fun _ => Track.of_get fun s => Track.of_ite (fun _ => ?_) fun _ => ?_
    · exact Track.bind iunlockput_one fun _ _ h => Track.of_pure h
    · refine Track.skip update_still fun _ => Track.skip iunlock_still fun _ => Track.bind (namex_refs hcwd) ?_
      rintro (_ | ⟨dp, name⟩) c' h
      · obtain rfl : c' = hold c [e] := h
        exact linkBad_refs
      · obtain ⟨_, rfl⟩ := h
        rw [hold_hold]
        have hfirst : Track Fs.ref (hold c [dp, e]) (iunlockput dp) fun _ c' => c' = hold c [e] :=
          (iunlockput_hold (List.mem_cons_self ..)).post fun _ _ h => by rwa [List.erase_cons_head] at h
        have hbad : Track Fs.ref (hold c [dp, e]) (do
            iunlockput dp
            linkBad e) fun _ c' => c' = c := Track.bind hfirst fun _ _ h => h ▸ linkBad_refs
        refine Track.skip ilock_still fun _ => Track.of_get fun s => Track.of_ite (fun _ => hbad) fun _ => ?_
        refine Track.skip dirlink_still fun _ => Track.of_ite (fun _ => ?_) fun _ => hbad
        refine Track.bind hfirst ?_
        rintro _ _ rfl
        exact Track.bind iput_one fun _ _ h => Track.of_pure h

theorem unlinkEntry_refs {off : Nat} : Track Fs.ref (hold c [e, dp]) (unlinkEntry dp e off) fun _ c' => c' = c := by
  refine Track.of_get fun s => Track.skip (Still.of_ite isdirempty_still Still.of_pure) fun empty => ?_
  refine Track.of_ite (fun _ => ?_) fun _ => Track.skip writei_still fun r => Track.of_ite (fun _ => Track.of_throw) fun _ => ?_
  · refine Track.bind (iunlockput_hold (List.mem_cons_self ..)) ?_
    rintro _ _ rfl
    rw [List.erase_cons_head]
    exact Track.bind iunlockput_one fun _ _ h => Track.of_pure h
  · have hend : Track Fs.ref (hold c [e, dp]) (do
        iunlockput dp
        update e fun d => { d with nlink := (d.nlink + 2 ^ 16 - 1) % 2 ^ 16 }
        iunlockput e
        pure true) fun _ c' => c' = c := by
      refine Track.bind iunlockput_second ?_
      rintro _ _ rfl
      exact Track.skip update_still fun _ => Track.bind iunlockput_one fun _ _ h => Track.of_pure h
    exact Track.of_ite (fun _ => Track.skip update_still fun _ => hend) fun _ => hend

theorem unlink_still (hcwd : cwd < ninode) : Still Fs.ref (unlink cwd path) := by
  intro c
  refine Track.bind (namex_refs hcwd) ?_
  rintro (_ | ⟨dp, name⟩) c' h
  · exact Track.of_pure h
  · obtain ⟨_, rfl⟩ := h
    have hend : Track Fs.ref (hold c [dp]) (do
        iunlockput dp
        pure false) fun _ c' => c' = c := Track.bind iunlockput_one fun _ _ h => Track.of_pure h
    refine Track.skip ilock_still fun _ => Track.of_ite (fun _ => hend) fun _ => Track.bind dirlookup_refs ?_
    rintro (_ | ⟨e, off⟩) c' h
    · obtain rfl : c' = hold c [dp] := h
      exact hend
    · obtain ⟨_, rfl⟩ := h
      rw [hold_hold]
      refine Track.skip ilock_still fun _ => Track.of_get fun s => Track.of_ite (fun _ => Track.of_throw) fun _ => ?_
      exact unlinkEntry_refs

theorem openInode_refs {omode : Nat} (hcwd : cwd < ninode) : Track Fs.ref c (openInode cwd path omode) (Got c) := by
  have hip : Track Fs.ref c (if hasFlag omode oCreate = true then create cwd path tFile 0 0
      else do
        match ← namei cwd path with
        | none => pure none
        | some e => do
            ilock e
            let s ← get
            if (s.inode e).d.type = tDir ∧ omode ≠ oRdonly then do
              iunlockput e
              pure none
            else pure (some e)) (Got c) := by
    refine Track.of_ite (fun _ => create_refs hcwd) fun _ => Track.bind (namei_refs hcwd) ?_
    rintro (_ | e) c' h
    · exact Track.of_pure h
    · obtain ⟨he, rfl⟩ := h
      refine Track.skip ilock_still fun _ => Track.of_get fun s => Track.of_ite (fun _ => ?_) fun _ => Track.of_pure ⟨he, rfl⟩
      exact Track.bind iunlockput_one fun _ _ h => Track.of_pure h
  refine Track.bind hip ?_
  rintro (_ | e) c' h
  · exact Track.of_pure h
  · obtain ⟨he, rfl⟩ := h
    refine Track.of_get fun s => Track.of_ite (fun _ => ?_) fun _ => Track.of_pure ⟨he, rfl⟩
    exact Track.bind iunlockput_one fun _ _ h => Track.of_pure h

theorem openTrunc_still {omode : Nat} : Still Fs.ref (openTrunc e omode) :=
  Still.of_get fun _ => Still.of_ite (Still.bind itrunc_still fun _ => iunlock_still) iunlock_still

theorem chdir_refs (hcwd : cwd < ninode) : Track Fs.ref c (chdir cwd path) fun r c' =>
    match r with
    | none => c' = c
    | some e => e < ninode ∧ c' = Function.update (hold c [e]) cwd (hold c [e] cwd - 1) := by
  refine Track.bind (namei_refs hcwd) ?_
  rintro (_ | e) c' h
  · exact Track.of_pure h
  · obtain ⟨he, rfl⟩ := h
    refine Track.skip ilock_still fun _ => Track.of_get fun s => Track.of_ite (fun _ => ?_) fun _ => ?_
    · exact Track.bind iunlockput_one fun _ _ h => Track.of_pure h
    · exact Track.skip iunlock_still fun _ => Track.bind iput_refs fun _ _ h => Track.of_pure ⟨he, h⟩

theorem readAll_still {reads : List (Nat × Nat)} : Still Fs.ref (readAll e reads) := by
  induction reads with
  | nil => exact Still.of_pure
  | cons r rs ih => exact Still.bind readiKernel_still fun _ => ih

theorem exec_still {reads : List (Nat × Nat)} (hcwd : cwd < ninode) : Still Fs.ref (exec cwd path reads) := by
  intro c
  refine Track.bind (namei_refs hcwd) ?_
  rintro (_ | e) c' h
  · exact Track.of_pure h
  · obtain ⟨_, rfl⟩ := h
    refine Track.skip ilock_still fun _ => Track.skip readAll_still fun _ => ?_
    exact Track.bind iunlockput_one fun _ _ h => Track.of_pure h

end Xv6.Fs
