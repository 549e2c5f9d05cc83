import MessageLang.Diagnostic.Basic
import MessageLang.Tree.Arena

namespace MessageLang

/-- A problem at a node, with the span that the node had when the problem was found. -/
structure Report where
  problem : Problem
  node : NodeId
  span : Span
deriving DecidableEq

/-- The problems found so far, in order. Nothing stops at a problem, so that all are found. -/
structure Log where
  reports : Array Report

namespace Log

def empty : Log := ⟨#[]⟩

def size (log : Log) : Nat := log.reports.size

def toList (log : Log) : List Report := log.reports.toList

def report (log : Log) (a : Arena) (node : NodeId) (problem : Problem) : Log :=
  ⟨log.reports.push ⟨problem, node, a.span node⟩⟩

/-- Takes a log back to an earlier size. A log that is no longer than that stays as it is. -/
def restore (log : Log) (mark : Nat) : Log := ⟨log.reports.take mark⟩

/-- What was reported after a log had an earlier size. -/
def since (log : Log) (mark : Nat) : List Report := log.toList.drop mark

/-- All problems in one line, each after its span. -/
def summary (log : Log) : String :=
  ", ".intercalate (log.toList.map fun r => toString r.span ++ " " ++ r.problem.message)

theorem toList_report (log : Log) (a : Arena) (node : NodeId) (problem : Problem) :
    (log.report a node problem).toList = log.toList ++ [⟨problem, node, a.span node⟩] := by
  simp [report, toList]

end Log

end MessageLang
