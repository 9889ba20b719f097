import GwOS.Lib.Links
import GwOS.Kernel.Debug
import GwOS.Thread.Thread
import Mathlib.Data.List.Perm.Subperm

/-!
# Intrusive lists (`lib/kernel/list.c`)

A list is a pair of sentinels, and its nodes are cells inside of other structures. The state is the
content of the cells by address, and the interrupt flag, which the two functions that write links
turn off and restore. Address 0 is the null pointer.

The assignments are those of the source, each link read again where the source reads it again.
`listInsertBefore_ok` and `listRemove_ok` say what they come to: two links written in each
direction, and one.

- `lists_refine`: over any family of disjoint lists, the functions are the operations on sequences.
-/

namespace GwOS

/-- `struct list_node`. -/
structure ListNode where
  prev : UInt32
  next : UInt32
  deriving DecidableEq

/-- The cells, and the interrupt flag. -/
structure ListState where
  node : UInt32 → ListNode
  intr : IntrStatus

/-- `&list->head`. -/
def headOf (list : UInt32) : UInt32 := list

/-- `&list->tail`. -/
def tailOf (list : UInt32) : UInt32 := list + 8

/-- More steps than there are addresses: a walk as long as this has met a cycle. -/
def listFuel : Nat := 2 ^ 32

namespace ListState

/-! ## The functions of `list.c` -/

/-- `*p`. -/
def deref (s : ListState) (p : UInt32) : Except Fault ListNode :=
  if p = 0 then .error .nullDeref else .ok (s.node p)

/-- `p->next = q`. -/
def setNext (s : ListState) (p q : UInt32) : Except Fault ListState :=
  if p = 0 then .error .nullDeref
  else .ok { s with node := Function.update s.node p { s.node p with next := q } }

/-- `p->prev = q`. -/
def setPrev (s : ListState) (p q : UInt32) : Except Fault ListState :=
  if p = 0 then .error .nullDeref
  else .ok { s with node := Function.update s.node p { s.node p with prev := q } }

/-- `intr_set_status`; `intr_disable` is the case `off`. -/
def intrSet (s : ListState) (status : IntrStatus) : ListState := { s with intr := status }

/-- `list_init`. -/
def listInit (s : ListState) (list : UInt32) : Except Fault ListState := do
  let s ← s.setPrev (headOf list) 0
  let s ← s.setNext (headOf list) (tailOf list)
  let s ← s.setPrev (tailOf list) (headOf list)
  s.setNext (tailOf list) 0

/-- `list_insert_before`. -/
def listInsertBefore (s : ListState) (src node : UInt32) : Except Fault ListState := do
  let oldStatus := s.intr
  let s := s.intrSet .off
  let srcNode ← s.deref src
  let s ← s.setNext srcNode.prev node
  let srcNode ← s.deref src
  let s ← s.setPrev node srcNode.prev
  let s ← s.setNext node src
  let s ← s.setPrev src node
  .ok (s.intrSet oldStatus)

/-- `list_push`. -/
def listPush (s : ListState) (list node : UInt32) : Except Fault ListState := do
  let first ← s.deref (headOf list)
  s.listInsertBefore first.next node

/-- `list_append`. -/
def listAppend (s : ListState) (list node : UInt32) : Except Fault ListState :=
  s.listInsertBefore (tailOf list) node

/-- `list_remove`. -/
def listRemove (s : ListState) (node : UInt32) : Except Fault ListState := do
  let oldStatus := s.intr
  let s := s.intrSet .off
  let cell ← s.deref node
  let s ← s.setNext cell.prev cell.next
  let cell ← s.deref node
  let s ← s.setPrev cell.next cell.prev
  .ok (s.intrSet oldStatus)

/-- `list_pop`. -/
def listPop (s : ListState) (list : UInt32) : Except Fault (UInt32 × ListState) := do
  let first ← s.deref (headOf list)
  let s ← s.listRemove first.next
  .ok (first.next, s)

/-- `list_empty`. -/
def listEmpty (s : ListState) (list : UInt32) : Except Fault Bool := do
  let first ← s.deref (headOf list)
  .ok (decide (first.next = tailOf list))

/-- The loop of `node_find`. -/
def nodeFindLoop (s : ListState) (list objNode : UInt32) : Nat → UInt32 → Except Fault Bool
  | 0, _ => .error .outOfFuel
  | k + 1, node =>
    if node ≠ tailOf list then
      if node = objNode then .ok true
      else do
        let cell ← s.deref node
        nodeFindLoop s list objNode k cell.next
    else .ok false

/-- `node_find`. -/
def nodeFind (s : ListState) (list objNode : UInt32) : Except Fault Bool := do
  let first ← s.deref (headOf list)
  nodeFindLoop s list objNode listFuel first.next

/-- The loop of `list_traversal`. -/
def listTraversalLoop (s : ListState) (list : UInt32) (func : UInt32 → Int → Bool) (arg : Int) :
    Nat → UInt32 → Except Fault UInt32
  | 0, _ => .error .outOfFuel
  | k + 1, node =>
    if node ≠ tailOf list then
      if func node arg then .ok node
      else do
        let cell ← s.deref node
        listTraversalLoop s list func arg k cell.next
    else .ok 0

/-- `list_traversal`; the result is a pointer. -/
def listTraversal (s : ListState) (list : UInt32) (func : UInt32 → Int → Bool) (arg : Int) :
    Except Fault UInt32 := do
  let first ← s.deref (headOf list)
  if ← s.listEmpty list then .ok 0
  else listTraversalLoop s list func arg listFuel first.next

/-- The loop of `list_len`. -/
def listLenLoop (s : ListState) (list : UInt32) : Nat → UInt32 → UInt32 → Except Fault UInt32
  | 0, _, _ => .error .outOfFuel
  | k + 1, node, len =>
    if node ≠ tailOf list then do
      let cell ← s.deref node
      listLenLoop s list k cell.next (len + 1)
    else .ok len

/-- `list_len`. -/
def listLen (s : ListState) (list : UInt32) : Except Fault UInt32 := do
  let first ← s.deref (headOf list)
  listLenLoop s list listFuel first.next 0

/-! ## Links -/

/-- The links forwards. -/
def next (s : ListState) (p : UInt32) : UInt32 := (s.node p).next

/-- The links backwards. -/
def prev (s : ListState) (p : UInt32) : UInt32 := (s.node p).prev

variable {s : ListState} {p q : UInt32}

theorem deref_ok (hp : p ≠ 0) : s.deref p = .ok (s.node p) := if_neg hp

theorem next_update (s : ListState) (p : UInt32) (cell : ListNode) :
    next { s with node := Function.update s.node p cell } = Function.update s.next p cell.next :=
  Function.comp_update ListNode.next s.node p cell

theorem prev_update (s : ListState) (p : UInt32) (cell : ListNode) :
    prev { s with node := Function.update s.node p cell } = Function.update s.prev p cell.prev :=
  Function.comp_update ListNode.prev s.node p cell

/-- A link forwards is written, and no link backwards. -/
theorem setNext_ok (hp : p ≠ 0) (q : UInt32) :
    ∃ s', s.setNext p q = .ok s' ∧ s'.next = Function.update s.next p q ∧ s'.prev = s.prev ∧
      s'.intr = s.intr := by
  refine ⟨_, if_neg hp, next_update .., ?_, rfl⟩
  exact (prev_update ..).trans (Function.update_eq_self p s.prev)

theorem setPrev_ok (hp : p ≠ 0) (q : UInt32) :
    ∃ s', s.setPrev p q = .ok s' ∧ s'.next = s.next ∧ s'.prev = Function.update s.prev p q ∧
      s'.intr = s.intr := by
  refine ⟨_, if_neg hp, ?_, prev_update .., rfl⟩
  exact (next_update ..).trans (Function.update_eq_self p s.next)

/-- The node gets both links of its own, and each neighbour one to it. -/
theorem listInsertBefore_ok {src node : UInt32} (hsrc : src ≠ 0) (hpred : s.prev src ≠ 0)
    (hnode : node ≠ 0) :
    ∃ s', s.listInsertBefore src node = .ok s' ∧
      s'.next = Function.update (Function.update s.next (s.prev src) node) node src ∧
      s'.prev = Function.update (Function.update s.prev node (s.prev src)) src node ∧
      s'.intr = s.intr := by
  obtain ⟨s1, h1, hn1, hp1, hi1⟩ := setNext_ok (s := s.intrSet .off) hpred node
  have hsrc1 : (s1.node src).prev = s.prev src := congrFun hp1 src
  obtain ⟨s2, h2, hn2, hp2, hi2⟩ := setPrev_ok (s := s1) hnode (s.prev src)
  obtain ⟨s3, h3, hn3, hp3, hi3⟩ := setNext_ok (s := s2) hnode src
  obtain ⟨s4, h4, hn4, hp4, hi4⟩ := setPrev_ok (s := s3) hsrc node
  refine ⟨s4.intrSet s.intr, ?_, ?_, ?_, rfl⟩
  · have hfirst : ((s.intrSet .off).node src).prev = s.prev src := rfl
    rw [listInsertBefore]
    simp only [deref_ok hsrc, bind, Except.bind, hfirst, h1, hsrc1, h2, h3, h4]
  · show s4.next = _
    rw [hn4, hn3, hn2, hn1]
    rfl
  · show s4.prev = _
    rw [hp4, hp3, hp2, hp1]
    rfl

/-- The neighbours of the node become neighbours of each other. -/
theorem listRemove_ok {node : UInt32} (hnode : node ≠ 0) (hpred : s.prev node ≠ 0)
    (hsucc : s.next node ≠ 0) (hne : node ≠ s.prev node) :
    ∃ s', s.listRemove node = .ok s' ∧ s'.next = Function.update s.next (s.prev node) (s.next node) ∧
      s'.prev = Function.update s.prev (s.next node) (s.prev node) ∧ s'.intr = s.intr := by
  obtain ⟨s1, h1, hn1, hp1, hi1⟩ := setNext_ok (s := s.intrSet .off) hpred (s.next node)
  have hnext1 : (s1.node node).next = s.next node := by
    have hget := congrFun hn1 node
    rwa [Function.update_of_ne hne] at hget
  have hprev1 : (s1.node node).prev = s.prev node := congrFun hp1 node
  obtain ⟨s2, h2, hn2, hp2, hi2⟩ := setPrev_ok (s := s1) hsucc (s.prev node)
  refine ⟨s2.intrSet s.intr, ?_, ?_, ?_, rfl⟩
  · have hfirst : ((s.intrSet .off).node node).prev = s.prev node := rfl
    have hsecond : ((s.intrSet .off).node node).next = s.next node := rfl
    rw [listRemove]
    simp only [deref_ok hnode, bind, Except.bind, hfirst, hsecond, h1, hnext1, hprev1, h2]
  · show s2.next = _
    rw [hn2, hn1]
    rfl
  · show s2.prev = _
    rw [hp2, hp1]
    rfl

/-- `list_init` makes an empty list and changes no other cell's links. -/
theorem listInit_ok {list : UInt32} (hhead : headOf list ≠ 0) (htail : tailOf list ≠ 0) :
    ∃ s', s.listInit list = .ok s' ∧
      Links.IsList s'.next s'.prev 0 (headOf list) (tailOf list) [] ∧ s'.intr = s.intr ∧
      ∀ a, a ≠ headOf list → a ≠ tailOf list → s'.next a = s.next a ∧ s'.prev a = s.prev a := by
  have hne : headOf list ≠ tailOf list := by
    unfold headOf tailOf
    grind
  obtain ⟨s1, h1, hn1, hp1, hi1⟩ := setPrev_ok (s := s) hhead 0
  obtain ⟨s2, h2, hn2, hp2, hi2⟩ := setNext_ok (s := s1) hhead (tailOf list)
  obtain ⟨s3, h3, hn3, hp3, hi3⟩ := setPrev_ok (s := s2) htail (headOf list)
  obtain ⟨s4, h4, hn4, hp4, hi4⟩ := setNext_ok (s := s3) htail 0
  have hnext : s4.next = Function.update (Function.update s.next (headOf list) (tailOf list))
      (tailOf list) 0 := by rw [hn4, hn3, hn2, hn1]
  have hprev : s4.prev = Function.update (Function.update s.prev (headOf list) 0) (tailOf list)
      (headOf list) := by rw [hp4, hp3, hp2, hp1]
  refine ⟨s4, ?_, ⟨?_, ?_, ?_, ?_, ?_⟩, by rw [hi4, hi3, hi2, hi1], fun a ha hat => ?_⟩
  · rw [listInit]
    simp only [bind, Except.bind, h1, h2, h3, h4]
  · simpa [Links.cells] using hne
  · simpa [Links.cells] using And.intro (Ne.symm hhead) (Ne.symm htail)
  · refine List.isChain_cons_cons.mpr ⟨⟨?_, ?_⟩, List.isChain_singleton _⟩
    · rw [hnext, Function.update_of_ne hne, Function.update_self]
    · rw [hprev, Function.update_self]
  · rw [hprev, Function.update_of_ne hne, Function.update_self]
  · rw [hnext, Function.update_self]
  · rw [hnext, hprev, Function.update_of_ne hat, Function.update_of_ne ha, Function.update_of_ne hat,
      Function.update_of_ne ha]
    exact ⟨rfl, rfl⟩

/-! ## Walks -/

/-- From `node` on, the nodes `B` of the list are still ahead. -/
structure Ahead (s : ListState) (list : UInt32) (B : List UInt32) (node : UInt32) : Prop where
  path : Links.Path s.next s.prev (B ++ [tailOf list])
  here : (B ++ [tailOf list]).head? = some node
  tail : tailOf list ∉ B
  nonnull : 0 ∉ B

section Walk

variable {list node b : UInt32} {B : List UInt32}

theorem Ahead.nil (h : Ahead s list [] node) : node = tailOf list := (Option.some.inj h.here).symm

/-- One step of a loop. -/
theorem Ahead.cons (h : Ahead s list (b :: B) node) :
    node = b ∧ b ≠ tailOf list ∧ s.deref b = .ok (s.node b) ∧ Ahead s list B (s.node b).next := by
  have htail := h.tail
  have hnonnull := h.nonnull
  rw [List.mem_cons, not_or] at htail hnonnull
  refine ⟨(Option.some.inj h.here).symm, Ne.symm htail.1, deref_ok (Ne.symm hnonnull.1), ?_⟩
  have hpath := h.path
  rw [List.cons_append] at hpath
  obtain ⟨c, C, hC⟩ := List.exists_cons_of_ne_nil (List.append_ne_nil_of_right_ne_nil B
    (List.cons_ne_nil (tailOf list) []))
  rw [hC] at hpath
  obtain ⟨⟨hnext, -⟩, hrest⟩ := List.isChain_cons_cons.mp hpath
  refine ⟨by rw [hC]; exact hrest, ?_, htail.2, hnonnull.2⟩
  rw [hC]
  exact congrArg some hnext.symm

theorem Ahead.of_isList {xs : List UInt32}
    (h : Links.IsList s.next s.prev 0 (headOf list) (tailOf list) xs) :
    Ahead s list xs (s.node (headOf list)).next := by
  refine ⟨?_, h.next_head, h.tail_not_mem, h.null_not_mem⟩
  have hpath := h.path
  rw [Links.cells, ← List.singleton_append] at hpath
  exact hpath.right_of_append

theorem nodeFindLoop_ok (objNode : UInt32) {k : Nat} (h : Ahead s list B node) (hk : B.length < k) :
    nodeFindLoop s list objNode k node = .ok (decide (objNode ∈ B)) := by
  induction B generalizing k node with
  | nil =>
    obtain ⟨k, rfl⟩ : ∃ m, k = m + 1 := ⟨k - 1, by omega⟩
    rw [nodeFindLoop, if_neg (not_not.mpr h.nil)]
    simp
  | cons b B ih =>
    obtain ⟨k, rfl⟩ : ∃ m, k = m + 1 := ⟨k - 1, by omega⟩
    obtain ⟨rfl, hne, hderef, hrest⟩ := h.cons
    rw [nodeFindLoop, if_pos hne]
    by_cases hobj : node = objNode
    · rw [if_pos hobj, hobj]
      simp
    · rw [if_neg hobj, hderef]
      show nodeFindLoop s list objNode k (s.node node).next = _
      rw [ih hrest (Nat.lt_of_succ_lt_succ hk)]
      simp [Ne.symm hobj]

theorem listTraversalLoop_ok (func : UInt32 → Int → Bool) (arg : Int) {k : Nat}
    (h : Ahead s list B node) (hk : B.length < k) :
    listTraversalLoop s list func arg k node = .ok ((B.find? fun n => func n arg).getD 0) := by
  induction B generalizing k node with
  | nil =>
    obtain ⟨k, rfl⟩ : ∃ m, k = m + 1 := ⟨k - 1, by omega⟩
    rw [listTraversalLoop, if_neg (not_not.mpr h.nil)]
    rfl
  | cons b B ih =>
    obtain ⟨k, rfl⟩ : ∃ m, k = m + 1 := ⟨k - 1, by omega⟩
    obtain ⟨rfl, hne, hderef, hrest⟩ := h.cons
    rw [listTraversalLoop, if_pos hne]
    by_cases hfunc : func node arg = true
    · rw [if_pos hfunc, List.find?_cons, hfunc]
      rfl
    · rw [if_neg hfunc, hderef, List.find?_cons, eq_false_of_ne_true hfunc]
      exact ih hrest (Nat.lt_of_succ_lt_succ hk)

theorem listLenLoop_ok {k : Nat} (len : UInt32) (h : Ahead s list B node) (hk : B.length < k) :
    listLenLoop s list k node len = .ok (len + UInt32.ofNat B.length) := by
  induction B generalizing k node len with
  | nil =>
    obtain ⟨k, rfl⟩ : ∃ m, k = m + 1 := ⟨k - 1, by omega⟩
    rw [listLenLoop, if_neg (not_not.mpr h.nil)]
    exact congrArg Except.ok (UInt32.add_zero len).symm
  | cons b B ih =>
    obtain ⟨k, rfl⟩ : ∃ m, k = m + 1 := ⟨k - 1, by omega⟩
    obtain ⟨rfl, hne, hderef, hrest⟩ := h.cons
    rw [listLenLoop, if_pos hne, hderef]
    show listLenLoop s list k (s.node node).next (len + 1) = _
    rw [ih (len + 1) hrest (Nat.lt_of_succ_lt_succ hk), List.length_cons, UInt32.ofNat_add,
      UInt32.add_assoc, UInt32.add_comm 1]
    rfl

/-- A list has fewer nodes than there are addresses. -/
theorem length_lt_fuel {h t : UInt32} {xs : List UInt32} (hl : (Links.cells h t xs).Nodup) :
    xs.length < listFuel := by
  have hnat : ((Links.cells h t xs).map UInt32.toNat).Nodup :=
    hl.map fun a b hab => UInt32.toNat_inj.mp hab
  have hsub : (Links.cells h t xs).map UInt32.toNat ⊆ List.range (2 ^ 32) := by
    intro a ha
    obtain ⟨b, -, rfl⟩ := List.mem_map.mp ha
    exact List.mem_range.mpr b.toNat_lt
  have hle := (hnat.subperm hsub).length_le
  simp only [List.length_map, List.length_range, Links.cells, List.length_cons, List.length_append] at hle
  unfold listFuel
  omega

end Walk

/-! ## Families of lists -/

/-- Disjoint lists at the addresses `list i`, with the sequences `seq i`. -/
def Lists {ι : Type*} (s : ListState) (list : ι → UInt32) (seq : ι → List UInt32) : Prop :=
  Links.Family s.next s.prev 0 (fun i => headOf (list i)) (fun i => tailOf (list i)) seq

/-- The cell is in none of the lists. -/
def Outside {ι : Type*} (list : ι → UInt32) (seq : ι → List UInt32) (n : UInt32) : Prop :=
  ∀ i, n ∉ Links.cells (headOf (list i)) (tailOf (list i)) (seq i)

/-- The call returned, and the list `i` has the sequence `xs`: the other lists and the interrupt
flag are as they were. -/
def Becomes {ι : Type*} [DecidableEq ι] (s : ListState) (list : ι → UInt32) (seq : ι → List UInt32)
    (i : ι) (xs : List UInt32) (r : Except Fault ListState) : Prop :=
  ∃ s', r = .ok s' ∧ s'.Lists list (Function.update seq i xs) ∧ s'.intr = s.intr

section Family

variable {ι : Type*} {list : ι → UInt32} {seq : ι → List UInt32} {i : ι} {n src : UInt32}
  {A B xs : List UInt32}

theorem Lists.nonnull (h : s.Lists list seq) {a : UInt32}
    (ha : a ∈ Links.cells (headOf (list i)) (tailOf (list i)) (seq i)) : a ≠ 0 :=
  ne_of_mem_of_not_mem ha (h.lists i).nonnull

theorem Lists.head_nonnull (h : s.Lists list seq) (i : ι) : headOf (list i) ≠ 0 :=
  h.nonnull (i := i) List.mem_cons_self

/-- What the functions that walk begin with. -/
theorem Lists.ahead (h : s.Lists list seq) (i : ι) :
    Ahead s (list i) (seq i) (s.node (headOf (list i))).next ∧ (seq i).length < listFuel :=
  ⟨.of_isList (h.lists i), length_lt_fuel (h.lists i).nodup⟩

theorem Lists.empty_ok (h : s.Lists list seq) (i : ι) :
    s.listEmpty (list i) = .ok (seq i).isEmpty := by
  rw [listEmpty, deref_ok (h.head_nonnull i)]
  obtain ⟨hahead, -⟩ := h.ahead i
  cases hseq : seq i with
  | nil =>
    rw [hseq] at hahead
    exact congrArg Except.ok (decide_eq_true hahead.nil)
  | cons x xs =>
    rw [hseq] at hahead
    obtain ⟨hx, hne, -⟩ := hahead.cons
    exact congrArg Except.ok (decide_eq_false (hx ▸ hne))

theorem Lists.find_ok (h : s.Lists list seq) (i : ι) (n : UInt32) :
    s.nodeFind (list i) n = .ok (decide (n ∈ seq i)) := by
  obtain ⟨hahead, hlen⟩ := h.ahead i
  rw [nodeFind, deref_ok (h.head_nonnull i)]
  exact nodeFindLoop_ok n hahead hlen

theorem Lists.traversal_ok (h : s.Lists list seq) (i : ι) (func : UInt32 → Int → Bool) (arg : Int) :
    s.listTraversal (list i) func arg = .ok (((seq i).find? fun n => func n arg).getD 0) := by
  obtain ⟨hahead, hlen⟩ := h.ahead i
  rw [listTraversal, deref_ok (h.head_nonnull i), h.empty_ok i]
  cases hempty : (seq i).isEmpty with
  | true =>
    rw [List.isEmpty_iff.mp hempty]
    rfl
  | false => exact listTraversalLoop_ok func arg hahead hlen

theorem Lists.len_ok (h : s.Lists list seq) (i : ι) :
    ∃ len, s.listLen (list i) = .ok len ∧ len.toNat = (seq i).length := by
  obtain ⟨hahead, hlen⟩ := h.ahead i
  refine ⟨0 + UInt32.ofNat (seq i).length, ?_, ?_⟩
  · rw [listLen, deref_ok (h.head_nonnull i)]
    exact listLenLoop_ok 0 hahead hlen
  · rw [UInt32.zero_add, UInt32.toNat_ofNat']
    exact Nat.mod_eq_of_lt hlen

/-- `list_init` adds an empty list to the family, if its sentinels are outside. -/
theorem Lists.init (h : s.Lists list seq) {l : UInt32} (hhead : headOf l ≠ 0) (htail : tailOf l ≠ 0)
    (hoh : Outside list seq (headOf l)) (hot : Outside list seq (tailOf l)) :
    ∃ s', s.listInit l = .ok s' ∧ s'.intr = s.intr ∧
      s'.Lists (fun o : Option ι => o.elim l list) fun o => o.elim [] seq := by
  obtain ⟨s', hcall, hlist, hintr, hframe⟩ := listInit_ok (s := s) hhead htail
  have hdisj : ∀ j, List.Disjoint (Links.cells (headOf l) (tailOf l) [])
      (Links.cells (headOf (list j)) (tailOf (list j)) (seq j)) := by
    intro j a ha haj
    simp only [Links.cells, List.nil_append, List.mem_cons, List.not_mem_nil, or_false] at ha
    rcases ha with rfl | rfl
    · exact hoh j haj
    · exact hot j haj
  refine ⟨s', hcall, hintr, fun o => ?_, fun o o' hne => ?_⟩
  · cases o with
    | none => exact hlist
    | some j =>
      have hsame : ∀ a ∈ Links.cells (headOf (list j)) (tailOf (list j)) (seq j),
          s'.next a = s.next a ∧ s'.prev a = s.prev a := fun a ha =>
        hframe a (ne_of_mem_of_not_mem ha (hoh j)) (ne_of_mem_of_not_mem ha (hot j))
      exact (h.lists j).congr (fun a ha => (hsame a ha).1) fun a ha => (hsame a ha).2
  · cases o with
    | none =>
      cases o' with
      | none => exact absurd rfl hne
      | some j => exact hdisj j
    | some j =>
      cases o' with
      | none => exact List.disjoint_symm (hdisj j)
      | some k => exact h.disjoint j k fun hjk => hne (congrArg some hjk)

variable [DecidableEq ι]

/-- A cell from outside goes in front of `src`, which is a node of the list or the sentinel. -/
theorem Lists.insertBefore (h : s.Lists list seq) (hseq : seq i = A ++ B)
    (hsrc : (B ++ [tailOf (list i)]).head? = some src) (hn : Outside list seq n) (hnull : n ≠ 0) :
    s.Becomes list seq i (A ++ n :: B) (s.listInsertBefore src n) := by
  have hl := h.lists i
  rw [hseq] at hl
  have hpred : s.prev src ≠ 0 := ne_of_mem_of_not_mem (hl.prev_mem hsrc) hl.nonnull
  have hmem : src ∈ Links.cells (headOf (list i)) (tailOf (list i)) (A ++ B) := by
    rw [Links.cells, List.append_assoc]
    exact List.mem_cons_of_mem _ (List.mem_append_right _ (List.mem_of_mem_head? hsrc))
  obtain ⟨s', hcall, hnext, hprev, hintr⟩ :=
    listInsertBefore_ok (ne_of_mem_of_not_mem hmem hl.nonnull) hpred hnull
  refine ⟨s', hcall, ?_, hintr⟩
  unfold Lists
  rw [hnext, hprev]
  exact Links.Family.insert h hseq hsrc hn hnull

/-- A node is taken out of its list, and is outside then. -/
theorem Lists.remove (h : s.Lists list seq) (hseq : seq i = A ++ n :: B) :
    s.Becomes list seq i (A ++ B) (s.listRemove n) ∧
      Outside list (Function.update seq i (A ++ B)) n := by
  obtain ⟨hfamily, hout⟩ := Links.Family.remove h hseq
  have hl := h.lists i
  rw [hseq] at hl
  obtain ⟨hpred, hsucc⟩ := hl.neighbours_mem
  have hnew := (hfamily.lists i).nonnull
  have hni := hout i
  rw [Function.update_self] at hnew hni
  have hmem : n ∈ Links.cells (headOf (list i)) (tailOf (list i)) (seq i) := by
    rw [hseq]
    simp [Links.cells]
  obtain ⟨s', hcall, hnext, hprev, hintr⟩ := listRemove_ok (h.nonnull hmem)
    (ne_of_mem_of_not_mem hpred hnew) (ne_of_mem_of_not_mem hsucc hnew)
    (Ne.symm (ne_of_mem_of_not_mem hpred hni))
  refine ⟨⟨s', hcall, ?_, hintr⟩, hout⟩
  unfold Lists
  rw [hnext, hprev]
  exact hfamily

theorem Lists.push (h : s.Lists list seq) (i : ι) (hn : Outside list seq n) (hnull : n ≠ 0) :
    s.Becomes list seq i (n :: seq i) (s.listPush (list i) n) := by
  rw [listPush, deref_ok (h.head_nonnull i)]
  exact h.insertBefore (A := []) (B := seq i) rfl (h.lists i).next_head hn hnull

theorem Lists.append (h : s.Lists list seq) (i : ι) (hn : Outside list seq n) (hnull : n ≠ 0) :
    s.Becomes list seq i (seq i ++ [n]) (s.listAppend (list i) n) :=
  h.insertBefore (A := seq i) (B := []) (List.append_nil _).symm rfl hn hnull

theorem Lists.pop (h : s.Lists list seq) (hseq : seq i = n :: xs) :
    ∃ s', s.listPop (list i) = .ok (n, s') ∧ s'.Lists list (Function.update seq i xs) ∧
      Outside list (Function.update seq i xs) n ∧ s'.intr = s.intr := by
  have hfirst := (h.lists i).next_head
  rw [hseq] at hfirst
  have hnext : (s.node (headOf (list i))).next = n := (Option.some.inj hfirst).symm
  obtain ⟨⟨s', hcall, hlists, hintr⟩, hout⟩ := h.remove (A := []) hseq
  refine ⟨s', ?_, hlists, hout, hintr⟩
  rw [listPop, deref_ok (h.head_nonnull i)]
  simp only [bind, Except.bind, hnext, hcall]

theorem Lists.erase (h : s.Lists list seq) (hn : n ∈ seq i) :
    s.Becomes list seq i ((seq i).erase n) (s.listRemove n) ∧
      Outside list (Function.update seq i ((seq i).erase n)) n := by
  obtain ⟨A, B, -, hseq, herase⟩ := List.exists_erase_eq hn
  rw [herase]
  exact h.remove hseq

/-- **Lists are sequences.** -/
theorem lists_refine (h : s.Lists list seq) (i : ι) :
    (∀ n, n ≠ 0 → Outside list seq n →
      s.Becomes list seq i (n :: seq i) (s.listPush (list i) n) ∧
      s.Becomes list seq i (seq i ++ [n]) (s.listAppend (list i) n) ∧
      ∀ A src B, seq i = A ++ src :: B →
        s.Becomes list seq i (A ++ n :: src :: B) (s.listInsertBefore src n)) ∧
    (∀ n ∈ seq i, s.Becomes list seq i ((seq i).erase n) (s.listRemove n) ∧
      Outside list (Function.update seq i ((seq i).erase n)) n) ∧
    (∀ n xs, seq i = n :: xs → ∃ s', s.listPop (list i) = .ok (n, s') ∧
      s'.Lists list (Function.update seq i xs) ∧ Outside list (Function.update seq i xs) n ∧
      s'.intr = s.intr) ∧
    (∀ n, s.nodeFind (list i) n = .ok (decide (n ∈ seq i))) ∧
    (∃ len, s.listLen (list i) = .ok len ∧ len.toNat = (seq i).length) ∧
    s.listEmpty (list i) = .ok (seq i).isEmpty ∧
    ∀ func arg, s.listTraversal (list i) func arg =
      .ok (((seq i).find? fun n => func n arg).getD 0) := by
  refine ⟨fun n hnull hn => ⟨h.push i hn hnull, h.append i hn hnull, fun A src B hseq => ?_⟩,
    fun n hn => h.erase hn, fun n xs hseq => h.pop hseq, h.find_ok i, h.len_ok i, h.empty_ok i,
    h.traversal_ok i⟩
  exact h.insertBefore hseq rfl hn hnull

end Family

/-- A list at `0x100` with the node `0x300`, and an empty list at `0x200`. -/
def sampleLists : ListState where
  node a :=
    if a = 0x100 then ⟨0, 0x300⟩
    else if a = 0x300 then ⟨0x100, 0x108⟩
    else if a = 0x108 then ⟨0x300, 0⟩
    else if a = 0x200 then ⟨0, 0x208⟩
    else if a = 0x208 then ⟨0x200, 0⟩
    else ⟨0, 0⟩
  intr := .on

def sampleAt (b : Bool) : UInt32 := if b then 0x200 else 0x100

def sampleSeq (b : Bool) : List UInt32 := if b then [] else [0x300]

theorem sampleLists_lists : sampleLists.Lists sampleAt sampleSeq := by
  constructor
  · rintro (_ | _)
    · exact ⟨by decide, by decide, List.isChain_cons_cons.mpr ⟨⟨rfl, rfl⟩, List.isChain_cons_cons.mpr
        ⟨⟨rfl, rfl⟩, List.isChain_singleton _⟩⟩, rfl, rfl⟩
    · exact ⟨by decide, by decide, List.isChain_cons_cons.mpr ⟨⟨rfl, rfl⟩, List.isChain_singleton _⟩,
        rfl, rfl⟩
  · rintro (_ | _) (_ | _) hne
    · exact absurd rfl hne
    · simp only [Links.cells, sampleSeq, List.disjoint_cons_left]
      simp [headOf, tailOf, sampleAt]
    · simp only [Links.cells, sampleSeq, List.disjoint_cons_left]
      simp [headOf, tailOf, sampleAt]
    · exact absurd rfl hne

theorem lists_refine_sample :
    sampleLists.Becomes sampleAt sampleSeq false [0x300, 0x400] (sampleLists.listAppend 0x100 0x400) ∧
      sampleLists.Becomes sampleAt sampleSeq false [] (sampleLists.listRemove 0x300) ∧
      sampleLists.nodeFind 0x100 0x300 = .ok true := by
  obtain ⟨hinsert, hremove, -, hfind, -⟩ := lists_refine sampleLists_lists false
  exact ⟨(hinsert 0x400 (by decide) (by unfold Outside; decide)).2.1,
    (hremove 0x300 (by simp [sampleSeq])).1, hfind 0x300⟩

end ListState

end GwOS
