/-!
# Tokens

Methods, names of headers and the parts of a media type are tokens: texts of letters, digits
and some other visible characters of ASCII.
-/

namespace DurableCache.Http

/-- Whether a character may stand in a token. -/
def isTokenChar (c : Char) : Bool :=
  c.isAlphanum || ['!', '#', '$', '%', '&', Char.ofNat 0x27, '*', '+', '-', '.', '^', '_',
    Char.ofNat 0x60, '|', '~'].contains c

/-- Whether a text is a token. -/
def isToken (s : String) : Bool := s != "" && s.toList.all isTokenChar

end DurableCache.Http
