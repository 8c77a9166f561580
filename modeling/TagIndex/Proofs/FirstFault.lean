import TagIndex.Proofs.Faults

/-!
# The first syntax error in document order

The search for a syntax error passes over every node without a flag, together with all that is below
it. Where the parser flags each node above an error nothing is lost by that: the search finds what a
plain scan of the nodes in document order finds. It comes back out of flagged nodes with no visible
error below, and it stops at an error before it meets those inside.

- `Tree.Flagged`: the flags that the parser promises.
- `Tree.firstFault?_eq_find?`: the search is the scan.
- `Tree.firstFault?_preorder`: what is found, when nothing is, and the position that is reported.
-/

namespace TagIndex.Tree

/-- Every node with an error somewhere below is flagged. Other nodes may be flagged too. -/
inductive Flagged : Tree → Prop where
  | mk {n : Node} {cs : List Tree}
      (hflag : ∀ m ∈ preorderAll cs, m.isFault = true → n.hasError = true)
      (hcs : ∀ t ∈ cs, Flagged t) : Flagged (mk n cs)

theorem firstFaultAmong?_eq_find? {ts : List Tree}
    (h : ∀ t ∈ ts, t.firstFault? = t.preorder.find? Node.isFault) :
    firstFaultAmong? ts = (preorderAll ts).find? Node.isFault := by
  induction ts with
  | nil => rfl
  | cons t ts ih =>
    have ht := h t List.mem_cons_self
    have hts := ih fun u hu => h u (List.mem_cons_of_mem t hu)
    rw [firstFaultAmong?, preorderAll, List.find?_append, ht, hts]

theorem firstFault?_eq_find? {t : Tree} (h : t.Flagged) :
    t.firstFault? = t.preorder.find? Node.isFault := by
  induction h with
  | @mk n cs hflag _ ih =>
    rw [preorder]
    by_cases hfault : n.isFault = true
    · rw [List.find?_cons_of_pos hfault]
      exact if_pos hfault
    rw [List.find?_cons_of_neg hfault]
    by_cases herror : n.hasError = true
    · rw [← firstFaultAmong?_eq_find? ih]
      exact (if_neg hfault).trans (if_pos herror)
    · -- without the flag there is no error below, so the scan finds nothing there either
      have hbelow : (preorderAll cs).find? Node.isFault = none :=
        List.find?_eq_none.mpr fun m hm hm' => herror (hflag m hm hm')
      rw [hbelow]
      exact (if_neg hfault).trans (if_neg herror)

theorem firstFault?_eq_none_iff {t : Tree} (h : t.Flagged) :
    t.firstFault? = none ↔ ∀ n ∈ t.preorder, n.isFault = false := by
  simp [firstFault?_eq_find? h]

/-- In a tree with the flags that the parser promises the search finds the first error of the nodes
in document order. A source is in order exactly if its tree has no error at all, and otherwise the
first one is reported. -/
theorem firstFault?_preorder {root : Tree} (h : root.Flagged) (src : List Char) :
    root.firstFault? = root.preorder.find? Node.isFault ∧
    (root.firstFault? = none ↔ ∀ n ∈ root.preorder, n.isFault = false) ∧
    (root.diagnostic? src = none ↔ ∀ n ∈ root.preorder, n.isFault = false) ∧
    ∀ d, root.diagnostic? src = some d →
      ∃ before n after, root.preorder = before ++ n :: after ∧
        (∀ m ∈ before, m.isFault = false) ∧ n.isFault = true ∧ root.firstFault? = some n ∧
        d.position = n.position src := by
  have hnone := firstFault?_eq_none_iff h
  refine ⟨firstFault?_eq_find? h, hnone, ?_, fun d hd => ?_⟩
  · rw [diagnostic?, Option.map_eq_none_iff, hnone]
  · obtain ⟨n, hn, rfl⟩ := Option.map_eq_some_iff.mp hd
    have hscan := firstFault?_eq_find? h
    rw [hn] at hscan
    obtain ⟨hfault, before, after, hsplit, hbefore⟩ :=
      List.find?_eq_some_iff_append.mp hscan.symm
    refine ⟨before, n, after, hsplit, fun m hm => ?_, hfault, hn, rfl⟩
    simpa using hbefore m hm

/-- A value without its right-hand side, flagged but with no visible error, and after it an error
with another one inside. -/
theorem firstFault?_preorder_nested :
    let inner : Node :=
      { Node.plain "ERROR" none 10 11 with isError := true, row := 1, column := 1 }
    let outer : Node :=
      { Node.plain "ERROR" none 9 11 with isError := true, hasError := true, row := 1, column := 0 }
    let value : Tree :=
      .mk { Node.plain "val_definition" none 0 7 with hasError := true }
        [.mk { Node.plain "identifier" (some "value") 7 7 with hasError := true } []]
    let root : Tree :=
      .mk { Node.plain "compilation_unit" none 0 11 with hasError := true }
        [value, .mk outer [.mk inner []]]
    root.Flagged ∧ root.firstFault? = some outer ∧
      ∀ d, root.diagnostic? "val x = \n)(".toList = some d → d.position = ⟨2, 1⟩ := by
  intro inner outer value root
  have hleaf (n : Node) : (mk n []).Flagged := .mk (by simp [preorderAll]) (by simp)
  have hvalue : value.Flagged := .mk (by simp) (by simpa using hleaf _)
  have herror : (mk outer [mk inner []]).Flagged := .mk (by simp [outer]) (by simpa using hleaf _)
  have hroot : root.Flagged := .mk (by simp) (by simpa using ⟨hvalue, herror⟩)
  obtain ⟨hscan, -, -, hposition⟩ := firstFault?_preorder hroot "val x = \n)(".toList
  refine ⟨hroot, hscan, fun d hd => ?_⟩
  obtain ⟨before, n, after, -, -, -, hn, hd⟩ := hposition d hd
  obtain rfl : outer = n := Option.some.inj hn
  exact hd

end TagIndex.Tree
