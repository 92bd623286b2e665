import Tsconfig.Host.Memory
import Tsconfig.Program.Basic
import Tsconfig.Proofs.Source.Component.Attributes
import Tsconfig.Proofs.Source.LeadingComments
import Tsconfig.Proofs.Source.Stretch

/-!
The references of a component are those of its script. The rest of the component is white space when it comes
to references, which neither the directives nor the tokens of the script show.
-/
namespace Tsconfig.Source
open Text

namespace Directive
variable {lead text tail : List Char} {c : Char}

theorem all_cons_blank (h : isBlank c = true) (text : List Char) : all (c :: text) = all text := by
  have htrim (line : List Char) : trim (c :: line) = trim line := by
    have hlead : ∀ d ∈ [c], isBlank d = true := by simpa using h
    have hmargins := @trim_margins [c] [] hlead (by simp) line
    rwa [List.append_nil] at hmargins
  by_cases hbreak : c = '\n'
  · have hline := @all_line [] List.not_mem_nil text
    rw [hbreak]
    exact hline
  by_cases hmem : '\n' ∈ text
  · obtain ⟨line, rest, rfl, hline⟩ := List.eq_append_cons_of_mem hmem
    have hlonger : '\n' ∉ c :: line := by simp [Ne.symm hbreak, hline]
    rw [← List.cons_append, all_line hlonger, all_line hline, htrim]
  · have hlonger : '\n' ∉ c :: text := by simp [Ne.symm hbreak, hmem]
    rw [all_lastLine hlonger, all_lastLine hmem, htrim]

/-- White space in front of a text hides no directives and gives none. -/
theorem all_append_of_blank (h : ∀ c ∈ lead, isBlank c = true) (text : List Char) :
    all (lead ++ text) = all text := by
  induction lead with
  | nil => rfl
  | cons c lead ih =>
    obtain ⟨hc, hlead⟩ := List.forall_mem_cons.mp h
    rw [List.cons_append, all_cons_blank hc, ih hlead]

/-- Behind the last line break white space gives no directives. -/
theorem all_append_blank (h : ∀ c ∈ tail, isBlank c = true) (hlast : ∀ c ∈ text.getLast?, c = '\n') :
    all (text ++ tail) = all text := by
  induction hlength : text.length using Nat.strongRecOn generalizing text with
  | ind length ih =>
    by_cases hmem : '\n' ∈ text
    · obtain ⟨line, rest, rfl, hline⟩ := List.eq_append_cons_of_mem hmem
      have hrest : ∀ c ∈ rest.getLast?, c = '\n' := by
        intro c hc
        apply hlast
        rw [List.getLast?_append, List.getLast?_cons, Option.mem_def.mp hc]
        rfl
      have hshorter : rest.length < length := by
        rw [← hlength, List.length_append, List.length_cons]
        omega
      rw [List.append_assoc, List.cons_append, all_line hline, all_line hline,
        ih _ hshorter hrest rfl]
    · have hnil : text = [] := by
        rcases List.eq_nil_or_concat text with hnil | ⟨init, c, hconcat⟩
        · exact hnil
        · rw [List.concat_eq_append] at hconcat
          have hc := hlast c (by simp [hconcat])
          exact absurd (by simp [hconcat, hc]) hmem
      have hnone := all_append_of_blank h []
      rw [List.append_nil] at hnone
      rw [hnil, List.nil_append, hnone]

end Directive

namespace Component
variable {lead body tail : String}

theorem isBlank_of_mem_blanked {text : List Char} {c : Char} (h : c ∈ text.flatMap blanked) :
    isBlank c = true := by
  obtain ⟨d, -, hc⟩ := List.mem_flatMap.mp h
  rw [blanked] at hc
  split at hc
  · rename_i hbreak
    rw [List.mem_singleton.mp hc]
    rcases hbreak with rfl | rfl
    all_goals decide
  · rw [List.eq_of_mem_replicate hc]
    decide

/-- White space around a closed text makes no difference to its references. -/
theorem references_margins {front behind : List Char} {text : String}
    (hfront : ∀ c ∈ front, isBlank c = true) (hbehind : ∀ c ∈ behind, isBlank c = true)
    (hlast : text.toList.getLast? = some '\n') (hclosed : IsClosed text.toList) :
    ModuleReference.all (String.ofList (front ++ (text.toList ++ behind))) = ModuleReference.all text := by
  have hblank : ∀ c ∈ text.toList.getLast?, isBlank c = true := by
    rw [hlast]
    rintro c ⟨⟩
    decide
  have hdirectives : Directive.all (front ++ (text.toList ++ behind)) = Directive.all text.toList := by
    rw [Directive.all_append_of_blank hfront, Directive.all_append_blank hbehind]
    rw [hlast]
    rintro c ⟨⟩
    rfl
  have htokens : tokenize (front ++ (text.toList ++ behind)) = tokenize text.toList := by
    rw [(reads_blanks hfront).tokenize_append, hclosed.tokenize_append hblank,
      (reads_blanks hfront).tokenize_eq, (reads_blanks hbehind).tokenize_eq, List.nil_append,
      List.append_nil]
  rw [ModuleReference.all, ModuleReference.all, String.toList_ofList, hdirectives, Import.specifiers, htokens,
    Import.specifiers]

/-- Of a component with one script, only the script contributes references, whatever else is in it. A file
leads just to where they lead. -/
theorem references_extract (hlead : contains openingName (lower lead.toList) = false)
    (htail : contains openingName (lower tail.toList) = false)
    (hbody : contains closingName (lower body.toList) = false)
    (hlast : body.toList.getLast? = some '\n') (hclosed : IsClosed body.toList) :
    let text := lead ++ "<script>" ++ body ++ "</script>" ++ tail
    ModuleReference.all (extract text).text = ModuleReference.all body ∧
    ∀ host resolver name, Kind.ofPath name = .component →
      SourceFile.importsOf host resolver .lexical name text =
        distinct ((ModuleReference.all body).filterMap (resolver.resolve? host name)) := by
  intro text
  have htext : text = String.ofList (component lead.toList [] body.toList tail.toList) := by
    have hopening : "<script>".toList = openingName ++ ['>'] := by decide +kernel
    have hclosing : "</script>".toList = closingName ++ ['>'] := by decide +kernel
    rw [← String.toList_inj, String.toList_ofList, component]
    simp only [text, String.toList_append, hopening, hclosing]
    simp
  have hreferences : ModuleReference.all (extract text).text = ModuleReference.all body := by
    obtain ⟨before, after, hextract⟩ : ∃ before after : List Char, (extract text).text =
        String.ofList (before.flatMap blanked ++ (body.toList ++ after.flatMap blanked)) := by
      refine ⟨lead.toList ++ openingName ++ [].flatMap Attribute.toChars ++ ['>'],
        closingName ++ '>' :: tail.toList, ?_⟩
      rw [htext, extract_component hlead htail hbody (by simp)]
    rw [hextract]
    exact references_margins (fun _ => isBlank_of_mem_blanked) (fun _ => isBlank_of_mem_blanked) hlast
      hclosed
  refine ⟨hreferences, fun host resolver name hname => ?_⟩
  have hscanned : (SourceFile.scanned (Kind.ofPath name) text).1 = (extract text).text := by
    rw [hname, SourceFile.scanned, if_pos rfl]
  have hkind : Kind.ofPath name ≠ .json := by simp [hname]
  rw [SourceFile.importsOf, if_neg hkind, hscanned, ReferenceFinder.lexical, hreferences]

section Surrounded

private def markup : String := "<template>import './x' `</template>\n/// <reference path=\"y\" />\n"

private def script : String :=
  "\n/// <reference types=\"b\" />\nimport a from './a' // it's `not` open\n/* \" */ `${c}`\n"

private def files : Memory := .ofFiles [("/p/a.ts", ""), ("/p/x.ts", ""), ("/p/y", "")]

/-- The quotes outside the script stay open, and those in its comments and its template do not. -/
theorem references_extract_surrounded :
    contains openingName (lower markup.toList) = false ∧
    contains closingName (lower script.toList) = false ∧
    script.toList.getLast? = some '\n' ∧ IsClosed script.toList ∧ Kind.ofPath "/p/A.vue" = .component ∧
    ModuleReference.all (extract (markup ++ "<script>" ++ script ++ "</script>" ++ markup)).text =
      [⟨.types, "b"⟩, ⟨.imported, "./a"⟩] ∧
    SourceFile.importsOf files.host (.ofOptions ∅) .lexical "/p/A.vue"
      (markup ++ "<script>" ++ script ++ "</script>" ++ markup) = ["/p/a.ts"] := by
  have hmarkup : contains openingName (lower markup.toList) = false := by decide +kernel
  have hscript : contains closingName (lower script.toList) = false := by decide +kernel
  have hlast : script.toList.getLast? = some '\n' := by decide +kernel
  have hkind : Kind.ofPath "/p/A.vue" = .component := by decide +kernel
  have hclosed : IsClosed script.toList := (isClosed_iff hlast (by decide)).mpr (by decide +kernel)
  obtain ⟨hreferences, himports⟩ := references_extract hmarkup hmarkup hscript hlast hclosed
  refine ⟨hmarkup, hscript, hlast, hclosed, hkind, hreferences.trans (by decide +kernel), ?_⟩
  exact (himports files.host (.ofOptions ∅) "/p/A.vue" hkind).trans (by decide +kernel)

end Surrounded

end Component
end Tsconfig.Source
