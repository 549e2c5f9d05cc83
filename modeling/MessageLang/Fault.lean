namespace MessageLang

/-- A broken contract. Misuse of the language is never a fault: it is reported and the work
goes on. A fault means that a caller handed over something that is no span or no tree. -/
inductive Fault where
  /-- A span that ends before it starts. -/
  | reversedSpan
  /-- A composite node without a child to take its span from. -/
  | childless
  /-- A node given a second parent. -/
  | attached
  /-- An offset whose column does not fit in 32 bits. -/
  | columnTooLarge
  /-- A walk longer than any walk in a tree of that size. -/
  | unending
deriving DecidableEq

end MessageLang
