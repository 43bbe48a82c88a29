import Khttp.Validation

/-!
# HEAD and GET

`server_process_request` opens the same file for HEAD as for GET and gives it the same
headers, but takes the body away. `http_response_write` announces the length of the body
that is left.
-/

namespace Khttp

variable {env : ServerEnv} {config : ConfigServer} {date : Bytes} {request : HttpRequest}
  {line : HttpRequestLine} {file : OpenedFile}

end Khttp
