import ScopedAggregation.Store.Record
import ScopedAggregation.Web.Html
import ScopedAggregation.Web.Wording

namespace ScopedAggregation.Web

open Html (Piece)

/-- The lines before the body of a page. -/
def preamble : List String := [
  "<!DOCTYPE html>",
  "<html lang=\"en\">",
  "<head>",
  "  <meta charset=\"utf-8\">",
  "  <title>aggexpr</title>",
  "  <style>",
  "    body \x7b font-family: system-ui, sans-serif; margin: 0; color: #1f2328; \x7d",
  "    nav \x7b background: #24292f; padding: 0.6rem 1.2rem; \x7d",
  "    nav a \x7b color: #f6f8fa; text-decoration: none; margin-right: 1.2rem; \x7d",
  "    nav a.active \x7b font-weight: 600; text-decoration: underline; \x7d",
  "    main \x7b padding: 1.2rem; max-width: 1100px; \x7d",
  "    table \x7b border-collapse: collapse; width: 100%; \x7d",
  "    th, td \x7b text-align: left; padding: 0.4rem 0.6rem; "
    ++ "border-bottom: 1px solid #d0d7de; \x7d",
  "    pre \x7b background: #f6f8fa; padding: 0.8rem; overflow-x: auto; \x7d",
  "    .empty \x7b color: #57606a; font-style: italic; \x7d",
  "    .error \x7b border-left: 4px solid #cf222e; padding: 0.4rem 0.8rem; "
    ++ "background: #ffebe9; \x7d",
  "    .kind-unresolved \x7b color: #9a6700; \x7d",
  "    .kind-depth \x7b color: #8250df; \x7d",
  "    .kind-invalid, .kind-parse \x7b color: #cf222e; \x7d",
  "  </style>",
  "</head>",
  "<body>"]

/-- What stands before the content of a page; the link to all definitions is marked on their own
page. -/
def header (onDashboard : Bool) (count : Nat) : Html := [
  .markup (String.join (preamble.map (· ++ "\n"))),
  .markup "<nav>\n  <a href=\"/ui\" class=\"brand\">aggexpr</a>\n",
  .markup "  <a href=\"/ui\" ",
  .markup (if onDashboard then "class=\"active\"" else ""),
  .markup ">Definitions (", .text (Text.ofNat count), .markup ")</a>\n",
  .markup "  <a href=\"/metrics\">Metrics</a>\n</nav>\n<main>\n\n"]

/-- What stands after the content of a page. -/
def footer : Html := [.markup "\n</main>\n</body>\n</html>\n\n"]

def page (onDashboard : Bool) (count : Nat) (content : Html) : Html :=
  header onDashboard count ++ content ++ footer

/-- The part of a description that has room in a row. -/
def summary (d : StoredDefinition) : Text := (truncate 80 d.description).toOption.getD []

/-- A definition in the list of all. -/
def row (now : Instant) (d : StoredDefinition) : Html := [
  .markup "\n    <tr>\n      <td><a href=\"/ui/definitions/", .text d.name, .markup "\">",
  .text d.name, .markup "</a></td>\n      <td>", .text (summary d),
  .markup "</td>\n      <td><code>", .text d.revision, .markup "</code></td>\n      <td>",
  .text (Text.ofNat (countLines d.source)), .markup "</td>\n      <td title=\"",
  .text (formatTime d.updated), .markup "\">", .text (timeAgo now d.updated),
  .markup "</td>\n    </tr>\n  "]

/-- The latest update first; definitions of the same moment keep their order. -/
def latestFirst (ds : List StoredDefinition) : List StoredDefinition :=
  ds.mergeSort fun a b => b.updated.nanos ≤ a.updated.nanos

/-- The page of all definitions. -/
def dashboard (now : Instant) (ds : List StoredDefinition) : Html :=
  let content : Html :=
    if ds.isEmpty then [
      .markup "\n<p class=\"empty\">No definitions stored. Create one with POST /v1/definitions ",
      .markup "or start the server with --definitions-dir.</p>\n"]
    else
      [.markup "\n<table>\n  <thead>\n    <tr><th>Name</th><th>Description</th><th>Revision</th>",
        .markup "<th>Lines</th><th>Updated</th></tr>\n  </thead>\n  <tbody>\n  "]
      ++ (latestFirst ds).flatMap (row now)
      ++ [.markup "\n  </tbody>\n</table>\n"]
  page true ds.length ([.markup "<h1>Definitions</h1>\n\n"] ++ content ++ [.markup "\n\n"])

/-- What became of a definition: its document, or an error and the name of its kind. -/
inductive Compiled where
  | document (text : Text)
  | failed (kind message : Text)
deriving DecidableEq, Repr

def Compiled.html : Compiled → Html
  | .document s => [.markup "\n<pre>", .text s, .markup "</pre>\n"]
  | .failed kind message => [
    .markup "\n<div class=\"error\">\n  <strong class=\"", .text (kindClass kind), .markup "\">",
    .text kind, .markup "</strong>\n  <pre>", .text message, .markup "</pre>\n</div>\n"]

/-- The labels of a definition, if it has any. -/
def labelsHtml (labels : Table Text) : Html :=
  if labels.isEmpty then []
  else
    [.markup "\n<p>"]
      ++ labels.flatMap (fun (k, v) =>
        [.markup "<code>", .text k, .markup "=", .text v, .markup "</code> "])
      ++ [.markup "</p>\n"]

/-- The page of one definition. -/
def detail (now : Instant) (count : Nat) (d : StoredDefinition) (c : Compiled) : Html :=
  page false count <|
    [.markup "\n<h1>", .text d.name, .markup "</h1>\n"]
      ++ (if d.description.isEmpty then []
        else [.markup "<p>", .text d.description, .markup "</p>"])
      ++ [.markup "\n<p>Revision <code>", .text d.revision, .markup "</code>, created ",
        .text (formatTime d.created), .markup ", updated ", .text (timeAgo now d.updated),
        .markup ".</p>\n"]
      ++ labelsHtml (d.labels.getD [])
      ++ [.markup "\n\n<h2>Source</h2>\n<pre>", .text d.source,
        .markup "</pre>\n\n<h2>Compiled document</h2>\n"]
      ++ c.html
      ++ [.markup "\n\n"]

/-- The page for a definition that is not there. -/
def notFound (count : Nat) (name : Text) : Html :=
  page false count [
    .markup "<h1>Not found</h1>\n<p>",
    .text (text "Definition '" ++ name ++ text "' not found"),
    .markup "</p>\n<p><a href=\"/ui\">Back to definitions</a></p>\n"]

end ScopedAggregation.Web
