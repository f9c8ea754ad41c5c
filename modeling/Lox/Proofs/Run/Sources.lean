/-
Sources without faults.

A source without static faults has trees, and what they are depends neither on the number of its
first node nor on what stands in front of it in a text.

* `Declaration.Valid` — trees without a static fault, on whatever lines and with whatever numbers;
* `Reads` — a source without static faults, and its trees;
* `reads_of_scanTokens`, `exists_reads`, `Reads.check_eq` — these are the sources that pass the
  check;
* `Reads.below`, `Reads.join` — a source behind empty lines, and sources in one text.
-/
import Lox.Proofs.Binding.Copies
import Lox.Proofs.Run.Agreement
import Lox.Proofs.Syntax.Joining

namespace Lox

open Concrete

namespace Concrete

/-- Trees without a misuse of a name have none on other lines or with other numbers. -/
theorem Alike.faults_eq_nil {L : Nat → Nat → Prop} {ts us : List Declaration} (h : Alike L ts us)
    {first : NodeId} (hf : (resolve (Declaration.astIn first ts)).faults = []) (first' : NodeId) :
    (resolve (Declaration.astIn first' us)).faults = [] := by
  have hpaired : Paired ⟨L, fun _ _ => True⟩ (Declaration.idsIn ts) first first' :=
    fun _ _ => trivial
  refine List.eq_nil_of_length_eq_zero ?_
  rw [(resolve_copy (h.copy hpaired)).2, hf]
  rfl

/-- The bindings of trees that stand one behind the other. -/
theorem resolve_astIn_append {ts us : List Declaration} (hts : Declaration.Sourced ts)
    (hus : Declaration.Sourced us) (first : NodeId) :
    (resolve (Declaration.astIn first (ts ++ us))).distances =
        (resolve (Declaration.astIn first ts)).distances.merge
          (resolve (Declaration.astIn (first + Declaration.idsIn ts) us)).distances ∧
      (resolve (Declaration.astIn first (ts ++ us))).faults.length =
        (resolve (Declaration.astIn first ts)).faults.length +
          (resolve (Declaration.astIn (first + Declaration.idsIn ts) us)).faults.length := by
  rw [Declaration.astIn_append]
  exact resolve_append (hts.stmtsRead first)
    ((Alike.refl (fun _ => rfl) hus.legal).copy (fun _ _ => rfl))

/-- Trees without a static fault. -/
structure Declaration.Valid (ts : List Declaration) : Prop extends Declaration.Sourced ts where
  bound : ∀ first, (resolve (Declaration.astIn first ts)).faults = []

namespace Declaration.Valid

variable {ts us : List Declaration} {tss : List (List Declaration)}

theorem nil : Declaration.Valid [] := ⟨.nil, fun _ => rfl⟩

theorem append (h : Declaration.Valid ts) (h' : Declaration.Valid us) :
    Declaration.Valid (ts ++ us) := by
  refine ⟨h.toSourced.append h'.toSourced, fun first => List.eq_nil_of_length_eq_zero ?_⟩
  rw [(resolve_astIn_append h.toSourced h'.toSourced first).2, h.bound, h'.bound]
  rfl

theorem relabelIn (h : Declaration.Valid ts) (f : Nat → Nat) :
    Declaration.Valid (Declaration.relabelIn f ts) := by
  have halike := alike_relabelIn_right (L := fun _ _ => True) (g := f) (fun _ => trivial) h.legal
  exact ⟨h.toSourced.relabelIn f, halike.faults_eq_nil (h.bound 0)⟩

theorem laid (h : ∀ ts ∈ tss, Declaration.Valid ts) (f : Nat → Nat → Nat) :
    ∀ us ∈ laid f tss, Declaration.Valid us := by
  intro us hus
  obtain ⟨i, hi, rfl⟩ := List.mem_mapIdx.mp hus
  exact (h _ (List.getElem_mem hi)).relabelIn (f i)

theorem flatten (h : ∀ ts ∈ tss, Declaration.Valid ts) : Declaration.Valid tss.flatten := by
  induction tss with
  | nil => exact .nil
  | cons ts tss ih =>
    obtain ⟨hts, htss⟩ := List.forall_mem_cons.mp h
    exact hts.append (ih htss)

end Declaration.Valid

end Concrete

/-! ### The check -/

/-- A source without static faults, and its trees. -/
structure Reads (source : String) (ts : List Declaration) : Prop where
  scans : Scans 1 source.toList (Declaration.leavesIn ts)
  valid : Declaration.Valid ts

/-- A source without static faults passes the check, with any number for the first node. -/
theorem Reads.check_eq {source : String} {ts : List Declaration} (h : Reads source ts)
    (first : NodeId) :
    check source first =
      ⟨.ok ⟨Declaration.astIn first ts, (resolve (Declaration.astIn first ts)).distances⟩,
        first + Declaration.idsIn ts⟩ := by
  have hend : BeginsWith Kind.isEnd [endOf 1 source.toList] := .cons rfl
  have htrees := treesOf_leavesIn h.valid.legal (.inr hend)
  rw [← h.scans.scanTokens_eq] at htrees
  unfold check bindNames
  simp only
  rw [h.scans.scanFaults_eq, htrees.parse_eq]
  simp only [h.valid.bound]
  rfl

/-- A source without faults is read as legal trees with its tokens. -/
theorem reads_of_scanTokens {source : String} {ts : List Declaration} (h : scanFaults source = [])
    (htokens : scanTokens source = Declaration.leavesIn ts ++ [endOf 1 source.toList])
    (hlegal : Declaration.AllLegal ts) {first : NodeId}
    (hfaults : (resolve (Declaration.astIn first ts)).faults = []) : Reads source ts := by
  obtain ⟨tokens, hscans⟩ := scans_of_scanFaults h
  have hleaves : Declaration.leavesIn ts = tokens :=
    List.append_cancel_right (htokens.symm.trans hscans.scanTokens_eq)
  have hgenuine : ∀ t ∈ Declaration.leavesIn ts, t.Genuine := fun t ht =>
    scanTokens_genuine source t (htokens ▸ List.mem_append_left _ ht)
  have hself := Alike.refl (L := fun _ _ => True) (fun _ => trivial) hlegal
  exact ⟨hleaves ▸ hscans, ⟨hlegal, hgenuine⟩, hself.faults_eq_nil hfaults⟩

/-- A source that passes the check has trees. -/
theorem exists_reads {source : String} {first : NodeId} {p : Program}
    (h : (check source first).result = .ok p) : ∃ ts, Reads source ts := by
  unfold check at h
  simp only at h
  cases hp : (parse (scanTokens source) first).result with
  | error faults =>
    rw [hp] at h
    cases h
  | ok statements =>
    rw [hp] at h
    simp only at h
    split at h
    · next hlexical =>
      have hlexical := List.isEmpty_iff.mp hlexical
      obtain ⟨tokens, hscans⟩ := scans_of_scanFaults hlexical
      obtain ⟨ts, htrees, rfl, -⟩ := exists_treesOf hp
      obtain ⟨hstatements, -, hfaults⟩ := bindNames_eq_ok h
      rw [hstatements] at hfaults
      -- the tokens of the text have no end among them
      have hopen : ∀ t ∈ tokens, (!t.kind.isEnd) = true := by
        intro t ht
        rw [hscans.not_end t ht]
        rfl
      have hleaves : Declaration.leavesIn ts = tokens := by
        rw [htrees.leaves, hscans.scanTokens_eq, List.takeWhile_append_of_pos hopen]
        exact List.append_nil tokens
      exact ⟨ts, reads_of_scanTokens hlexical (hleaves ▸ hscans.scanTokens_eq) htrees.legal hfaults⟩
    · cases h

theorem valid_of_reads {sources : List String} {tss : List (List Declaration)}
    (h : List.Forall₂ Reads sources tss) : ∀ ts ∈ tss, Declaration.Valid ts := by
  induction h with
  | nil => exact fun ts hts => absurd hts List.not_mem_nil
  | cons hread _ ih => exact List.forall_mem_cons.mpr ⟨hread.valid, ih⟩

/-! ### Sources in one text -/

/-- A source behind so many empty lines. -/
def below (lines : Nat) (source : String) : String :=
  String.ofList (List.replicate lines '\n' ++ source.toList)

/-- Behind empty lines a source is what it was, further down. -/
theorem Reads.below {source : String} {ts : List Declaration} (h : Reads source ts) (k : Nat) :
    Reads (below k source) (Declaration.relabelIn (· + k) ts) := by
  refine ⟨?_, h.valid.relabelIn _⟩
  unfold Lox.below
  rw [String.toList_ofList, Declaration.leavesIn_relabel]
  exact (h.scans.raise k).feeds

/-- A carriage return behind a source makes no difference. -/
theorem Reads.ret {s : List Char} {ts : List Declaration} (h : Reads (String.ofList s) ts) :
    Reads (String.ofList (s ++ ['\r'])) ts := by
  refine ⟨?_, h.valid⟩
  have hscans := h.scans
  rw [String.toList_ofList] at hscans ⊢
  exact hscans.ret

/-- The number of line ends in front of a source, where the sources stand in one text, one to a
line. -/
def linesBefore (sources : List String) (i : Nat) : Nat :=
  ((sources.take i).map fun source => source.toList.count '\n' + 1).sum

theorem linesBefore_succ (source : String) (sources : List String) (i : Nat) :
    linesBefore (source :: sources) (i + 1) =
      source.toList.count '\n' + 1 + linesBefore sources i := by
  unfold linesBefore
  rw [List.take_succ_cons, List.map_cons, List.sum_cons]

/-- Sources in one text, one to a line, are scanned one by one. -/
theorem scans_join {sources : List String} {tss : List (List Declaration)}
    (h : List.Forall₂ Reads sources tss) (k : Nat) :
    Scans (1 + k) ("\n".intercalate sources).toList
      (Declaration.leavesIn (laid (fun i l => l + (k + linesBefore sources i)) tss).flatten) := by
  rw [String.toList_intercalate]
  induction h generalizing k with
  | nil => exact .nil _
  | @cons source ts sources tss hread hrest ih =>
    have hfirst := hread.scans.raise k
    rw [laid_cons, List.flatten_cons, Declaration.leavesIn_append, Declaration.leavesIn_relabel]
    cases hrest with
    | nil =>
      rw [List.map_cons, List.map_nil, List.intercalate_singleton]
      rw [← List.append_nil (List.map _ _)] at hfirst
      exact hfirst
    | cons _ _ =>
      have hrest := ih (k + (source.toList.count '\n' + 1))
      have hline : 1 + (k + (source.toList.count '\n' + 1)) =
          lineAfter (1 + k) source.toList + 1 := by
        unfold lineAfter
        omega
      rw [hline] at hrest
      rw [List.map_cons, List.map_cons, List.intercalate_cons_cons, ← List.map_cons,
        List.append_assoc]
      simp only [linesBefore_succ, ← Nat.add_assoc] at hrest ⊢
      exact hfirst.append hrest

/-- Sources in one text are read as their trees, each on the lines on which it then stands. -/
theorem Reads.join {sources : List String} {tss : List (List Declaration)}
    (h : List.Forall₂ Reads sources tss) :
    Reads ("\n".intercalate sources)
      (laid (fun i l => l + linesBefore sources i) tss).flatten := by
  have hscans := scans_join h 0
  simp only [Nat.zero_add] at hscans
  exact ⟨hscans, .flatten (.laid (valid_of_reads h) _)⟩

end Lox
