import ProgramFacts.Proofs.FactBase.Extraction
/-!
# The facts of a program — every program that is read has them

There are two call graphs of a program. The parser makes one as it goes: it declares a procedure
when it comes to it, and adds a call whenever it meets one, however deep inside loops and branches.
The other is read off the finished tree, node by node, before facts are looked for. Both are the
graph of the procedures, entered one after the other, so they are the same graph
(`calls_eq_callGraph_ofTree`), also if a name is declared more than once. What the parser has
checked is thus what the facts need, and no program that is read is refused later
(`callGraphs_agree`).
-/

namespace ProgramFacts

namespace Program

variable {ts : List Token} {d : Draft}

/-- **The call graph that is kept while reading is that of the tree.** -/
theorem calls_eq_callGraph_ofTree (h : parseTokens ts = .ok d) :
    d.calls = CallGraph.ofTree d.program.toTree := by
  obtain ⟨-, -, tally, henters, hcalls⟩ := parseTokens_eq_ok.1 h
  rw [← hcalls, henters.calls_eq, callGraph_ofTree]

/-- What passes the checks on a whole program has facts. -/
theorem exists_factBase_of_check (h : parseTokens ts = .ok d) (hcheck : d.check = .ok ()) :
    ∃ kb, FactBase.ofTree d.program.toTree = .ok kb := by
  obtain ⟨-, hdeclared, hacyclic⟩ := check_eq_ok.1 hcheck
  rw [calls_eq_callGraph_ofTree h] at hdeclared hacyclic
  obtain ⟨order, horder⟩ := CallGraph.exists_order_iff.2 hacyclic
  have hchecked := CallGraph.checkDeclared_iff.2 hdeclared
  exact ⟨_, FactBase.ofTree_of_order rfl hchecked horder⟩

/-- **The two call graphs of a program agree, so every program that is read has facts.** Whatever
tokens a program is read from, and whether or not a procedure is declared twice, the call graph
that was kept while reading is the one that is read off the tree. Hence the facts of every program
that was read from a text can be found. -/
theorem callGraphs_agree :
    (∀ (ts : List Token) (d : Draft), parseTokens ts = .ok d →
      d.calls = CallGraph.ofTree d.program.toTree) ∧
    ∀ (source : String) (p : Program), parse source = .ok p →
      ∃ kb, FactBase.ofTree p.toTree = .ok kb := by
  refine ⟨fun ts d h => calls_eq_callGraph_ofTree h, fun source p h => ?_⟩
  obtain ⟨ts, -, h⟩ := Outcome.bind_eq_ok.1 h
  obtain ⟨d, hd, h⟩ := Outcome.bind_eq_ok.1 h
  obtain ⟨_, hcheck, h⟩ := Outcome.bind_eq_ok.1 h
  obtain rfl := Except.ok.inj h
  exact exists_factBase_of_check hd hcheck

/-- A program with a procedure declared twice, and calls at every depth, one of them to a procedure
that is not declared. -/
def declaredTwice : Program :=
  ⟨[⟨"main",
      [.call 1 "helper",
        .whileLoop 2 (.compare .gt (.var "x") (.const "0"))
          [.ifElse 3 (.compare .eq (.var "x") (.var "y")) [.call 4 "helper"] [.call 5 "ghost"]]]⟩,
    ⟨"helper", [.read 6 "x"]⟩,
    ⟨"main", [.call 7 "main"]⟩]⟩

theorem callGraphs_agree_declaredTwice :
    (∃ d, parseTokens (declaredTwice.tokens .minimal) = .ok d ∧ d.program = declaredTwice ∧
      d.calls = CallGraph.ofTree declaredTwice.toTree ∧
      d.calls.callees "main" = ["ghost", "helper", "main"]) ∧
    parse (sharedCallee.print .minimal) = .ok sharedCallee ∧
    ∃ kb, FactBase.ofTree sharedCallee.toTree = .ok kb := by
  obtain ⟨hgraphs, hfacts⟩ := callGraphs_agree
  refine ⟨?_, parse_sharedCallee, hfacts _ _ parse_sharedCallee⟩
  have hprintable : ∀ q ∈ declaredTwice.procedures, q.Printable := by decide
  have henters : ∃ repeated tally,
      Tally.Enters ⟨0, .empty⟩ declaredTwice.procedures repeated tally :=
    Tally.exists_enters.2 (by decide)
  obtain ⟨repeated, tally, henters⟩ := henters
  have hparse : parseTokens (declaredTwice.tokens .minimal) =
      .ok ⟨declaredTwice, tally.calls, repeated⟩ :=
    parseTokens_eq_ok.2 ⟨by simp [declaredTwice],
      Procedure.written_flatMap_tokens .minimal hprintable, tally, henters, rfl⟩
  have hcalls : tally.calls = CallGraph.ofTree declaredTwice.toTree := hgraphs _ _ hparse
  refine ⟨_, hparse, rfl, hcalls, ?_⟩
  show tally.calls.callees "main" = _
  rw [hcalls]
  decide +kernel

end Program

end ProgramFacts
